/-
  RabbitMQ.Core.Grammar — the byte streams `receive_message_data` accepts.

  The grammar of a frame is `RawFrame.bytes`. `decode` undoes it, whatever follows
  (`decode_raw_frame`), and what it accepts is one (`decode_raw`); so with full reads the
  reader accepts the streams that begin with a frame and no others, takes the frame, and
  returns its fields (`accepts_exactly_frames`). A frame cut short is not one, as no frame is
  the beginning of another (`decode_cut_short`).

  The buffer of a name of 2^32 - 1 bytes wraps; for shorter names every store is in bounds.
-/

import RabbitMQ.Core.Bounds
import RabbitMQ.Core.Relay

namespace RabbitMQ.Core

open Lib
open Lib.Bytes (leBytes ofLE)
open Lib.Reader (attempt exactly)

/-! ## Every frame is accepted -/

theorem decodeString_counted {raw : Bytes} (h : raw.length < 2 ^ 32) (rest : Bytes) :
    decodeString (counted32 raw ++ rest) = (some (CString.ofBuffer raw), rest) := by
  have hlen : (UInt32.ofNat raw.length).toNat = raw.length := UInt32.toNat_ofNat_of_lt' h
  have hlength : exactly 4 (u32 (UInt32.ofNat raw.length) ++ (raw ++ rest)) = _ := Reader.exactly_append (u32_length _)
  have hname : exactly (UInt32.ofNat raw.length).toNat (raw ++ rest) = (some raw, rest) := Reader.exactly_append hlen.symm
  simp only [decodeString, counted32, List.append_assoc, hlength, attempt, ofLE_u32, hname]

theorem decodeBody_counted {raw : Bytes} (h : raw.length < 2 ^ 32) (rest : Bytes) :
    decodeBody (counted32 raw ++ rest) = (some (UInt32.ofNat raw.length, if raw = [] then none else some raw), rest) := by
  have hlen : (UInt32.ofNat raw.length).toNat = raw.length := UInt32.toNat_ofNat_of_lt' h
  have hsize : exactly 4 (u32 (UInt32.ofNat raw.length) ++ (raw ++ rest)) = _ := Reader.exactly_append (u32_length _)
  have hbytes : exactly (UInt32.ofNat raw.length).toNat (raw ++ rest) = (some raw, rest) := Reader.exactly_append hlen.symm
  have hpos : 0 < UInt32.ofNat raw.length ↔ raw ≠ [] := by
    rw [UInt32.lt_iff_toNat_lt, hlen]
    exact List.length_pos_iff
  simp only [decodeBody, counted32, List.append_assoc, hsize, attempt, ofLE_u32]
  by_cases hraw : raw = []
  · rw [if_neg (by rw [hpos]; simpa using hraw), if_pos hraw, hraw, List.nil_append]
  · rw [if_pos (hpos.mpr hraw), if_neg hraw, hbytes]

theorem decodeProperties_fields (m : Fields) (priority : UInt32) (expiration : UInt64) (persistent : UInt8) (rest : Bytes) :
    decodeProperties m (u32 priority ++ (leBytes 8 expiration.toNat ++ ([persistent] ++ rest))) =
      (some { m with priority, expiration, persistent }, rest) := by
  have h4 : exactly 4 (u32 priority ++ (leBytes 8 expiration.toNat ++ ([persistent] ++ rest))) = _ :=
    Reader.exactly_append (u32_length priority)
  have h8 : exactly 8 (leBytes 8 expiration.toNat ++ ([persistent] ++ rest)) = _ :=
    Reader.exactly_append (Bytes.leBytes_length 8 expiration.toNat)
  have h1 : exactly 1 ([persistent] ++ rest) = (some [persistent], rest) := Reader.exactly_append rfl
  have hlast : UInt8.ofNat (ofLE [persistent]) = persistent := by
    rw [Bytes.ofLE_cons]
    simp [ofLE]
  simp only [decodeProperties, h4, h8, h1, attempt, ofLE_u32, Bytes.ofLE_uint64, hlast]

theorem decode_raw_frame (p : RawFrame) (rest : Bytes) : decode (p.bytes ++ rest) = (some p.fields, rest) := by
  have hsize : (UInt32.ofNat p.body.length).toUInt64 = UInt64.ofNat p.body.length := by
    apply UInt64.toNat_inj.mp
    rw [UInt32.toNat_toUInt64, UInt32.toNat_ofNat_of_lt' p.bodyFits,
      UInt64.toNat_ofNat_of_lt' (Nat.lt_trans p.bodyFits (by decide))]
  simp only [RawFrame.bytes, List.append_assoc, decode, Reader.exactly_append (u32_length MESSAGE_MAGIC), attempt, ofLE_u32,
    ne_eq, not_true, if_false, decodeRest, decodeString_counted p.exchangeFits, decodeString_counted p.routingKeyFits,
    decodeBody_counted p.bodyFits, decodeProperties_fields, hsize]
  rfl

/-- No beginning of a frame is accepted. -/
theorem decode_cut_short {bs : Bytes} {p : RawFrame} (hpre : bs <+: p.bytes) (hcut : bs ≠ p.bytes) : (decode bs).1 = none := by
  cases e : decode bs with
  | mk o rest =>
  cases o with
  | none => rfl
  | some v =>
    obtain ⟨more, hmore⟩ := hpre
    obtain ⟨used, hused, hexact⟩ := decode_exact bs v rest e
    have hwhole := decode_raw_frame p []
    rw [List.append_nil, ← hmore, hused, List.append_assoc, hexact, Prod.mk.injEq] at hwhole
    obtain ⟨-, hmore'⟩ := List.append_eq_nil_iff.mp hwhole.2
    rw [hmore', List.append_nil] at hmore
    exact absurd hmore hcut

/-! ## Every frame and nothing else -/

/-- The lengths of the names, as far as they are there, leave room for a NUL in 32 bits. -/
def LengthsShort (bs : Bytes) : Prop :=
  ∀ (n : UInt32) (rest : Bytes), bs = u32 MESSAGE_MAGIC ++ (u32 n ++ rest) → n.toNat < 2 ^ 32 - 1 ∧
    ∀ (exchange : Bytes) (k : UInt32) (rest' : Bytes), exchange.length = n.toNat → rest = exchange ++ (u32 k ++ rest') →
      k.toNat < 2 ^ 32 - 1

theorem u32_inj {a b : UInt32} (h : u32 a = u32 b) : a = b := by
  rw [← ofLE_u32 a, h, ofLE_u32]

theorem counted32_start {raw rest more : Bytes} {n : UInt32} (hraw : raw.length < 2 ^ 32)
    (h : counted32 raw ++ rest = u32 n ++ more) : n.toNat = raw.length ∧ more = raw ++ rest := by
  rw [counted32, List.append_assoc] at h
  obtain ⟨hlen, hmore⟩ := List.append_inj h (by rw [u32_length, u32_length])
  rw [← u32_inj hlen]
  exact ⟨UInt32.toNat_ofNat_of_lt' hraw, hmore.symm⟩

theorem lengthsShort_frame (p : RawFrame) (rest : Bytes) (he : p.exchange.length < 2 ^ 32 - 1)
    (hk : p.routingKey.length < 2 ^ 32 - 1) : LengthsShort (p.bytes ++ rest) := by
  intro n more h
  rw [RawFrame.bytes, List.append_assoc] at h
  have hafter := List.append_cancel_left h
  rw [List.append_assoc] at hafter
  obtain ⟨hn, rfl⟩ := counted32_start p.exchangeFits hafter
  refine ⟨by omega, fun exchange k rest' hlen hrest => ?_⟩
  obtain ⟨-, hname⟩ := List.append_inj hrest (by rw [hlen, hn])
  rw [List.append_assoc] at hname
  obtain ⟨hk', -⟩ := counted32_start p.routingKeyFits hname
  omega

/-- A short length does not wrap. -/
theorem short_fits {len : UInt32} (h : len.toNat < 2 ^ 32 - 1) (w : World) : LengthFits len w := by
  intro hwrap
  have hsum := congrArg UInt32.toNat hwrap
  rw [UInt32.toNat_add] at hsum
  have hone : (1 : UInt32).toNat = 1 := rfl
  have hzero : (0 : UInt32).toNat = 0 := rfl
  rw [hone, hzero] at hsum
  omega

theorem nameFits_of_short {w : World} (h : ∀ (n : UInt32) (rest : Bytes), w.inlet.input = u32 n ++ rest → n.toNat < 2 ^ 32 - 1) :
    NameFits w := by
  intro len w1 hread
  obtain ⟨len', rest, hexact, rfl, -⟩ := recvFull_follows 4 w _ rfl len w1 hread
  obtain ⟨hinput, hlen⟩ := exactly_taken hexact
  have hshort := h (UInt32.ofNat (ofLE len)) rest (by rw [u32_ofLE hlen, hinput])
  exact short_fits hshort w1

theorem buffersFit_of_short {fd : Int} {w : World} (h : LengthsShort w.inlet.input) : BuffersFit fd w := by
  intro _ magic w1 hread hmagic
  obtain ⟨magic', rest, hexact, rfl, hrest⟩ := recvFull_follows 4 w _ rfl magic w1 hread
  obtain ⟨hinput, hlen⟩ := exactly_taken hexact
  have hstart : w.inlet.input = u32 MESSAGE_MAGIC ++ rest := by rw [← hmagic, u32_ofLE hlen, hinput]
  refine ⟨nameFits_of_short fun n more hmore => ?_, fun exchange w2 hname => nameFits_of_short fun k more hmore => ?_⟩
  · have hrest : w1.inlet.input = rest := hrest
    rw [hrest] at hmore
    rw [hmore] at hstart
    exact (h n more hstart).1
  · obtain ⟨name, rest', hdecoded, -, hrest'⟩ := recvString_follows [] w1 rest hrest exchange w2 hname
    obtain ⟨raw, hraw, hlt, -⟩ := decodeString_raw hdecoded
    have hrest' : w2.inlet.input = rest' := hrest'
    rw [hrest'] at hmore
    rw [hraw, hmore, counted32, List.append_assoc] at hstart
    exact (h _ _ hstart).2 raw k more (UInt32.toNat_ofNat_of_lt' hlt).symm rfl

/-- With full reads and memory granted, on a stream that may end anywhere. -/
theorem accepts_exactly_frames {fd : Int} (hfd : 0 ≤ fd) {cuts : Nat → Nat} (hcuts : ∀ j, 2 ^ 32 ≤ cuts j) {errno k : Nat}
    {w : World} {bs : Bytes} (hw : Ahead cuts errno w bs k) (hshort : LengthsShort bs) :
    ((receiveMessageData fd w).1.isSome ↔ ∃ (p : RawFrame) (rest : Bytes), bs = p.bytes ++ rest) ∧
      (∀ (p : RawFrame) (rest : Bytes), bs = p.bytes ++ rest →
        (receiveMessageData fd w).1.map (·.toFields) = some p.fields ∧ (receiveMessageData fd w).2.inlet.input = rest) ∧
      (∀ p : RawFrame, bs <+: p.bytes → bs ≠ p.bytes → (receiveMessageData fd w).1 = none) ∧
      InBounds w (receiveMessageData fd w).2 := by
  obtain ⟨hvalue, k', hleft⟩ := receive_decodes hcuts hfd w bs ⟨k, hw⟩
  have hframe : ∀ (p : RawFrame) (rest : Bytes), bs = p.bytes ++ rest →
      (receiveMessageData fd w).1.map (·.toFields) = some p.fields ∧ (receiveMessageData fd w).2.inlet.input = rest := by
    rintro p rest rfl
    rw [decode_raw_frame] at hvalue hleft
    exact ⟨hvalue, hleft.input⟩
  refine ⟨⟨fun hsome => ?_, ?_⟩, hframe, fun p hpre hcut => ?_, ?_⟩
  · obtain ⟨m, hm⟩ := Option.isSome_iff_exists.mp hsome
    rw [hm] at hvalue
    obtain ⟨p, hp, -⟩ := decode_raw (Prod.ext hvalue.symm rfl)
    exact ⟨p, _, hp⟩
  · rintro ⟨p, rest, hp⟩
    have hmade := (hframe p rest hp).1
    cases hm : (receiveMessageData fd w).1 with
    | none =>
      rw [hm] at hmade
      cases hmade
    | some m => rfl
  · rw [decode_cut_short hpre hcut] at hvalue
    exact Option.map_eq_none_iff.mp hvalue
  · rw [stores_in_bounds_iff]
    exact buffersFit_of_short (by rw [hw.input]; exact hshort)

/-- A name with a NUL in it, a second frame begun. -/
theorem accepts_exactly_frames_of_nul : let w := inletOf (nulName.bytes ++ [81, 77]) fun _ => 2 ^ 32
    ((receiveMessageData 3 w).1.isSome ↔ ∃ (p : RawFrame) (rest : Bytes), nulName.bytes ++ [81, 77] = p.bytes ++ rest) ∧
      (∀ (p : RawFrame) (rest : Bytes), nulName.bytes ++ [81, 77] = p.bytes ++ rest →
        (receiveMessageData 3 w).1.map (·.toFields) = some p.fields ∧ (receiveMessageData 3 w).2.inlet.input = rest) ∧
      (∀ p : RawFrame, nulName.bytes ++ [81, 77] <+: p.bytes → nulName.bytes ++ [81, 77] ≠ p.bytes →
        (receiveMessageData 3 w).1 = none) ∧
      InBounds w (receiveMessageData 3 w).2 :=
  accepts_exactly_frames (by decide) (fun _ => Nat.le_refl _) (inletOf_ahead _ _)
    (lengthsShort_frame nulName [81, 77] (Nat.le_of_ble_eq_true rfl) (Nat.le_of_ble_eq_true rfl))

end RabbitMQ.Core
