/-
  RabbitMQ.Lib.Bytes — fixed-width integers as bytes in memory, least significant first.

  `leBytes w n` are the `w` bytes of `n`; `ofLE` is the number some bytes stand for. Each
  undoes the other (`ofLE_leBytes` below `256 ^ w`, `leBytes_ofLE` always), so a field is
  its bytes.
-/

import Mathlib.Data.Nat.Digits.Defs
import Mathlib.Tactic.Ring

namespace Lib.Bytes

def leBytes : Nat → Nat → List UInt8
  | 0, _ => []
  | w + 1, n => UInt8.ofNat n :: leBytes w (n / 256)

def ofLE (bs : List UInt8) : Nat := Nat.ofDigits 256 (bs.map UInt8.toNat)

@[simp] theorem leBytes_length (w n : Nat) : (leBytes w n).length = w := by
  induction w generalizing n with
  | zero => rfl
  | succ w ih => simp [leBytes, ih]

theorem ofLE_cons (b : UInt8) (bs : List UInt8) : ofLE (b :: bs) = b.toNat + 256 * ofLE bs := by
  simp [ofLE, Nat.ofDigits_cons]

theorem ofLE_append (as bs : List UInt8) : ofLE (as ++ bs) = ofLE as + 256 ^ as.length * ofLE bs := by
  simp [ofLE, Nat.ofDigits_append]

theorem ofLE_leBytes {w n : Nat} (h : n < 256 ^ w) : ofLE (leBytes w n) = n := by
  induction w generalizing n with
  | zero => simp [leBytes, ofLE] at h ⊢; omega
  | succ w ih =>
    have hq : n / 256 < 256 ^ w := by
      rw [Nat.div_lt_iff_lt_mul (by decide)]
      rwa [pow_succ] at h
    have hb : (UInt8.ofNat n).toNat = n % 256 := by simp
    rw [leBytes, ofLE_cons, ih hq, hb]
    omega

theorem leBytes_ofLE (bs : List UInt8) : leBytes bs.length (ofLE bs) = bs := by
  induction bs with
  | nil => rfl
  | cons b bs ih =>
    have hb := b.toNat_lt
    have hmod : UInt8.ofNat (b.toNat + 256 * ofLE bs) = b := by
      apply UInt8.toNat_inj.mp
      simp
    have hdiv : (b.toNat + 256 * ofLE bs) / 256 = ofLE bs := by omega
    rw [ofLE_cons, List.length_cons, leBytes, hmod, hdiv, ih]

theorem ofLE_lt (bs : List UInt8) : ofLE bs < 256 ^ bs.length := by
  induction bs with
  | nil => decide
  | cons b bs ih =>
    have hb := b.toNat_lt
    rw [ofLE_cons, List.length_cons, pow_succ]
    omega

theorem ofLE_uint32 (n : UInt32) : UInt32.ofNat (ofLE (leBytes 4 n.toNat)) = n := by
  have hn := n.toNat_lt
  rw [ofLE_leBytes (by simpa using hn), UInt32.ofNat_toNat]

/-- Four bytes are the bytes of their number. -/
theorem leBytes_uint32 {bs : List UInt8} (h : bs.length = 4) : leBytes 4 (UInt32.ofNat (ofLE bs)).toNat = bs := by
  have hlt := ofLE_lt bs
  rw [h] at hlt
  rw [UInt32.toNat_ofNat_of_lt' hlt, ← h, leBytes_ofLE]

theorem leBytes_uint64 {bs : List UInt8} (h : bs.length = 8) : leBytes 8 (UInt64.ofNat (ofLE bs)).toNat = bs := by
  have hlt := ofLE_lt bs
  rw [h] at hlt
  rw [UInt64.toNat_ofNat_of_lt' hlt, ← h, leBytes_ofLE]

theorem leBytes_uint8 {bs : List UInt8} (h : bs.length = 1) : [UInt8.ofNat (ofLE bs)] = bs := by
  have hbytes := leBytes_ofLE bs
  rwa [h] at hbytes

theorem ofLE_uint64 (n : UInt64) : UInt64.ofNat (ofLE (leBytes 8 n.toNat)) = n := by
  have hn := n.toNat_lt
  rw [ofLE_leBytes (by simpa using hn), UInt64.ofNat_toNat]

end Lib.Bytes
