/-
  RabbitMQ.Core.Bounds — where `receive_message_data` writes.

  The buffer of a name is one byte longer than the name, in 32-bit arithmetic: the length
  2^32 - 1 asks for a block of no bytes, and what arrives is written past its end. A stage
  of the reader is described by the stores it makes and the blocks it is granted (`Adds`);
  the requests of two stages are different, so each answers for its own (`within_append`).

  Every store is inside its block exactly when no such length comes with a block granted and
  a byte to write (`stores_in_bounds_iff`, `a_length_that_wraps_overruns`).
-/

import RabbitMQ.Core.Wire
import RabbitMQ.Core.Framing

namespace RabbitMQ.Core

open Lib
open Lib.Bytes (ofLE)
open Lib.Reader (attempt)

/-! ## Stores and blocks -/

/-- From `w` to `w'`, each store with the end of its range, each block with its size. -/
structure Adds (w w' : World) (stores blocks : List (Ptr × Nat)) : Prop where
  writes : w'.writes = w.writes ++ stores
  heap : w'.heap.blocks = w.heap.blocks ++ blocks
  next : w.heap.next ≤ w'.heap.next
  range : ∀ b ∈ stores ++ blocks, w.heap.next ≤ b.1.request ∧ b.1.request < w'.heap.next

def Within (stores blocks : List (Ptr × Nat)) : Prop := ∀ s ∈ stores, ∃ n, (s.1, n) ∈ blocks ∧ s.2 ≤ n

theorem adds_none {w w' : World} (hwrites : w'.writes = w.writes) (hheap : w'.heap.blocks = w.heap.blocks)
    (hnext : w.heap.next ≤ w'.heap.next) : Adds w w' [] [] :=
  ⟨by rw [hwrites, List.append_nil], by rw [hheap, List.append_nil], hnext, fun _ hb => absurd hb List.not_mem_nil⟩

theorem Adds.trans {w w' w'' : World} {s b s' b' : List (Ptr × Nat)} (h : Adds w w' s b) (h' : Adds w' w'' s' b') :
    Adds w w'' (s ++ s') (b ++ b') where
  writes := by rw [h'.writes, h.writes, List.append_assoc]
  heap := by rw [h'.heap, h.heap, List.append_assoc]
  next := Nat.le_trans h.next h'.next
  range := by
    intro p hp
    have hcases : p ∈ s ++ b ∨ p ∈ s' ++ b' := by
      simp only [List.mem_append] at hp ⊢
      tauto
    rcases hcases with hp | hp
    · exact ⟨(h.range p hp).1, Nat.lt_of_lt_of_le (h.range p hp).2 h'.next⟩
    · exact ⟨Nat.le_trans h.next (h'.range p hp).1, (h'.range p hp).2⟩

/-- Each stage writes to blocks of its own. -/
theorem within_append {w w' w'' : World} {s b s' b' : List (Ptr × Nat)} (h : Adds w w' s b) (h' : Adds w' w'' s' b') :
    Within (s ++ s') (b ++ b') ↔ Within s b ∧ Within s' b' := by
  constructor
  · intro hall
    constructor
    · intro p hp
      obtain ⟨n, hn, hle⟩ := hall p (List.mem_append_left _ hp)
      rcases List.mem_append.mp hn with hn | hn
      · exact ⟨n, hn, hle⟩
      · have hlt := (h.range p (List.mem_append_left _ hp)).2
        have hge := (h'.range _ (List.mem_append_right _ hn)).1
        exact absurd hge (Nat.not_le_of_lt hlt)
    · intro p hp
      obtain ⟨n, hn, hle⟩ := hall p (List.mem_append_right _ hp)
      rcases List.mem_append.mp hn with hn | hn
      · have hlt := (h.range _ (List.mem_append_right _ hn)).2
        have hge := (h'.range p (List.mem_append_left _ hp)).1
        exact absurd hge (Nat.not_le_of_lt hlt)
      · exact ⟨n, hn, hle⟩
  · rintro ⟨hall, hall'⟩ p hp
    rcases List.mem_append.mp hp with hp | hp
    · obtain ⟨n, hn, hle⟩ := hall p hp
      exact ⟨n, List.mem_append_left _ hn, hle⟩
    · obtain ⟨n, hn, hle⟩ := hall' p hp
      exact ⟨n, List.mem_append_right _ hn, hle⟩

theorem within_nil (blocks : List (Ptr × Nat)) : Within [] blocks := fun _ hp => absurd hp List.not_mem_nil

/-- The stores of `f` are inside the blocks it is granted exactly where `ok`. -/
def StaysWithin {γ : Type} (f : World → Option γ × World) (ok : World → Prop) : Prop :=
  ∀ w, ∃ stores blocks, Adds w (f w).2 stores blocks ∧ (Within stores blocks ↔ ok w)

theorem stays_quiet {γ : Type} {f : World → Option γ × World} (h : ∀ w, Adds w (f w).2 [] []) :
    StaysWithin f fun _ => True :=
  fun w => ⟨[], [], h w, iff_of_true (within_nil []) trivial⟩

/-- A stage and what follows it. -/
def Then {γ : Type} (f : World → Option γ × World) (ok : World → Prop) (ok' : γ → World → Prop) (w : World) : Prop :=
  ok w ∧ ∀ v w', f w = (some v, w') → ok' v w'

theorem stays_attempt {γ δ : Type} {f : World → Option γ × World} {ok : World → Prop} {exit : World → World}
    {k : γ → World → Option δ × World} {ok' : γ → World → Prop} (hf : StaysWithin f ok)
    (hexit : ∀ w, Adds w (exit w) [] []) (hk : ∀ v, StaysWithin (k v) (ok' v)) :
    StaysWithin (fun w => attempt (f w) exit k) (Then f ok ok') := by
  intro w
  obtain ⟨s, b, hadds, hwithin⟩ := hf w
  show ∃ stores blocks, Adds w (attempt (f w) exit k).2 stores blocks ∧ (Within stores blocks ↔ Then f ok ok' w)
  unfold Then
  cases e : f w with
  | mk o w1 =>
  rw [e] at hadds
  cases o with
  | none =>
    refine ⟨s, b, ?_, ?_⟩
    · have h := hadds.trans (hexit w1)
      rwa [List.append_nil, List.append_nil] at h
    · rw [hwithin]
      exact ⟨fun h => ⟨h, fun v w' he => by cases he⟩, fun h => h.1⟩
  | some v =>
    obtain ⟨s', b', hadds', hwithin'⟩ := hk v w1
    refine ⟨s ++ s', b ++ b', hadds.trans hadds', ?_⟩
    rw [within_append hadds hadds', hwithin, hwithin']
    refine and_congr_right fun _ => ⟨fun h v' w' he => ?_, fun h => h v w1 rfl⟩
    cases he
    exact h

theorem StaysWithin.of_iff {γ : Type} {f : World → Option γ × World} {ok ok' : World → Prop} (h : StaysWithin f ok)
    (hiff : ∀ w, ok w ↔ ok' w) : StaysWithin f ok' := by
  intro w
  obtain ⟨stores, blocks, hadds, hwithin⟩ := h w
  exact ⟨stores, blocks, hadds, hwithin.trans (hiff w)⟩

/-- An `attempt` whose continuation is always inside its blocks. -/
theorem stays_attempt_true {γ δ : Type} {f : World → Option γ × World} {ok : World → Prop} {exit : World → World}
    {k : γ → World → Option δ × World} (hf : StaysWithin f ok) (hexit : ∀ w, Adds w (exit w) [] [])
    (hk : ∀ v, StaysWithin (k v) fun _ => True) : StaysWithin (fun w => attempt (f w) exit k) ok :=
  (stays_attempt hf hexit hk).of_iff fun _ => and_iff_left fun _ _ _ => trivial

/-! ## The stages -/

theorem recv_keeps (n : Nat) (w : World) : (recv n w).2.writes = w.writes ∧ (recv n w).2.heap = w.heap := by
  unfold recv
  cases hout : w.inlet.outcome w.inlet.calls with
  | upTo k =>
    simp only [hout]
    exact ⟨trivial, trivial⟩
  | error errno =>
    simp only [hout]
    exact ⟨trivial, trivial⟩

theorem adds_recv (n : Nat) (w : World) : Adds w (recv n w).2 [] [] := by
  obtain ⟨hwrites, hheap⟩ := recv_keeps n w
  refine adds_none hwrites ?_ ?_
  · rw [hheap]
  · rw [hheap]

theorem recvFull_stays (n : Nat) : StaysWithin (recvFull n) fun _ => True := stays_quiet (adds_recv n)

theorem recv_length_le {n : Nat} {w : World} : ((recv n w).1.getD []).length ≤ n := by
  unfold recv
  cases hout : w.inlet.outcome w.inlet.calls with
  | upTo k =>
    simp only [hout, Option.getD_some, List.length_take]
    omega
  | error errno =>
    simp only [hout, Option.getD_none, List.length_nil]
    exact Nat.zero_le n

theorem recvInto_keeps (buf : Ptr) (n : Nat) (w : World) :
    (recvInto buf n w).2.writes = w.writes ++ [(buf, ((recv n w).1.getD []).length)] ∧ (recvInto buf n w).2.heap = w.heap := by
  obtain ⟨hwrites, hheap⟩ := recv_keeps n w
  exact ⟨congrArg (· ++ _) hwrites, hheap⟩

theorem recv_full {n : Nat} {w : World} {bytes : Bytes} (h : (recvFull n w).1 = some bytes) :
    ((recv n w).1.getD []).length = n := by
  obtain ⟨got, hgot, hfull⟩ := Option.bind_eq_some_iff.mp h
  rw [hgot]
  split at hfull
  · assumption
  · cases hfull

theorem release_adds (held : List Ptr) (w : World) : Adds w (release held w) [] [] := adds_none rfl rfl (Nat.le_refl _)

/-- A block of `size` bytes, and the stores of `g`, all of them into it. -/
theorem malloc_adds {w w' : World} {n : Nat} {buf : Ptr} {heap : Heap} (e : malloc w.heap n = (some buf, heap))
    (ends : List Nat) (hwrites : w'.writes = w.writes ++ ends.map fun n => (buf, n)) (hheap : w'.heap.blocks = heap.blocks)
    (hnext : heap.next ≤ w'.heap.next) : Adds w w' (ends.map fun n => (buf, n)) [(buf, n)] := by
  unfold malloc Alloc.Heap.request at e
  split at e
  · cases e
  · cases e
    refine ⟨hwrites, hheap, ?_, ?_⟩
    · exact Nat.le_trans (Nat.le_succ _) hnext
    · intro b hb
      have hreq : b.1.request = w.heap.next := by
        rcases List.mem_append.mp hb with hb | hb
        · obtain ⟨n, -, rfl⟩ := List.mem_map.mp hb
          rfl
        · rw [List.mem_singleton.mp hb]
      rw [hreq]
      exact ⟨Nat.le_refl _, hnext⟩

theorem malloc_adds_none {w w' : World} {n : Nat} {heap : Heap} (e : malloc w.heap n = (none, heap))
    (hwrites : w'.writes = w.writes) (hheap : w'.heap.blocks = heap.blocks) (hnext : heap.next ≤ w'.heap.next) :
    Adds w w' [] [] := by
  unfold malloc Alloc.Heap.request at e
  split at e
  · cases e
    exact adds_none hwrites hheap (Nat.le_trans (Nat.le_succ _) hnext)
  · cases e

/-- What arrives for a name of `len` bytes once its buffer is granted. -/
def arriving (len : UInt32) (w : World) : Bytes := ((recv len.toNat w).1.getD [])

/-- A length that wraps gets no block, or nothing arrives for it. -/
def LengthFits (len : UInt32) (w : World) : Prop :=
  len + 1 = 0 → ∀ buf heap, malloc w.heap 0 = (some buf, heap) → arriving len { w with heap } = []

theorem succ_length {len : UInt32} (h : len + 1 ≠ 0) : (len + 1).toNat = len.toNat + 1 := by
  have hlt := len.toNat_lt
  have hne : (len + 1).toNat ≠ 0 := fun e => h (UInt32.toNat_inj.mp e)
  rw [UInt32.toNat_add] at hne ⊢
  have hone : (1 : UInt32).toNat = 1 := rfl
  rw [hone] at hne ⊢
  omega

/-- The stores into a buffer of `len + 1` bytes: what arrives, and the NUL after a full read. -/
theorem ends_within {len : UInt32} {buf : Ptr} {got : Bytes} {ends : List Nat} (hgot : got.length ≤ len.toNat)
    (hends : ends = [got.length] ∨ (ends = [got.length, len.toNat + 1] ∧ got.length = len.toNat)) :
    Within (ends.map fun n => (buf, n)) [(buf, (len + 1).toNat)] ↔ (len + 1 = 0 → got = []) := by
  have hiff : Within (ends.map fun n => (buf, n)) [(buf, (len + 1).toNat)] ↔ ∀ n ∈ ends, n ≤ (len + 1).toNat := by
    simp [Within]
  rw [hiff]
  by_cases hwraps : len + 1 = 0
  · have hzero : (len + 1).toNat = 0 := by rw [hwraps]; rfl
    have hall : len.toNat = 2 ^ 32 - 1 := by
      rw [UInt32.toNat_add] at hzero
      have hone : (1 : UInt32).toNat = 1 := rfl
      have hlt := len.toNat_lt
      rw [hone] at hzero
      omega
    rw [hzero]
    constructor
    · intro h _
      have hle : got.length ≤ 0 := h got.length (by rcases hends with rfl | ⟨rfl, -⟩ <;> exact List.mem_cons_self)
      exact List.length_eq_zero_iff.mp (Nat.le_zero.mp hle)
    · intro h n hn
      rw [h hwraps] at hends
      rcases hends with rfl | ⟨-, hfull⟩
      · rw [List.mem_singleton.mp hn]
        exact Nat.le_refl 0
      · rw [List.length_nil] at hfull
        omega
  · rw [succ_length hwraps]
    refine iff_of_true (fun n hn => ?_) fun h => absurd h hwraps
    rcases hends with rfl | ⟨rfl, -⟩
    · simp only [List.mem_singleton] at hn
      omega
    · simp only [List.mem_cons, List.not_mem_nil, or_false] at hn
      omega

/-- A name without its length. -/
def recvName (held : List Ptr) (len : UInt32) (w : World) : Option (Ptr × CString) × World :=
  match malloc w.heap (len + 1).toNat with
  | (none, heap) => (none, release held { w with heap, errno := ENOMEM })
  | (some buf, heap) =>
    attempt (recvInto buf len.toNat { w with heap }) (release (held ++ [buf])) fun bytes w =>
    (some (buf, CString.ofBuffer bytes), { w with writes := w.writes ++ [(buf, len.toNat + 1)] })

theorem recvName_stays (held : List Ptr) (len : UInt32) : StaysWithin (recvName held len) (LengthFits len) := by
  intro w
  cases e : malloc w.heap (len + 1).toNat with
  | mk buf heap =>
  cases buf with
  | none =>
    have hname : recvName held len w = (none, release held { w with heap, errno := ENOMEM }) := by simp only [recvName, e]
    rw [hname]
    refine ⟨[], [], malloc_adds_none e rfl rfl (Nat.le_refl _), iff_of_true (within_nil []) ?_⟩
    intro hwraps buf heap' e'
    have hzero : (len + 1).toNat = 0 := by rw [hwraps]; rfl
    rw [hzero, e'] at e
    cases e
  | some buf =>
    have hgot : (arriving len { w with heap }).length ≤ len.toNat := recv_length_le
    have hfits : LengthFits len w ↔ (len + 1 = 0 → arriving len { w with heap } = []) := by
      refine forall_congr' fun hwraps => ⟨fun h => h buf heap ?_, fun h buf' heap' e' => ?_⟩
      · rw [← e, hwraps]
        rfl
      · have hzero : (len + 1).toNat = 0 := by rw [hwraps]; rfl
        rw [hzero, e'] at e
        cases e
        exact h
    rw [hfits]
    obtain ⟨hwrites, hheap⟩ := recvInto_keeps buf len.toNat { w with heap }
    have hread : recvName held len w = attempt (recvInto buf len.toNat { w with heap }) (release (held ++ [buf])) fun bytes w =>
        (some (buf, CString.ofBuffer bytes), { w with writes := w.writes ++ [(buf, len.toNat + 1)] }) := by
      simp only [recvName, e]
    rw [hread]
    cases hinto : recvInto buf len.toNat { w with heap } with
    | mk bytes w1 =>
    rw [hinto] at hwrites hheap
    have hblocks : w1.heap.blocks = heap.blocks := congrArg _ hheap
    have hnext : heap.next ≤ w1.heap.next := Nat.le_of_eq (congrArg _ hheap).symm
    cases bytes with
    | none =>
      exact ⟨_, _, malloc_adds e [_] hwrites hblocks hnext, ends_within hgot (Or.inl rfl)⟩
    | some bytes =>
      have hfull : (arriving len { w with heap }).length = len.toNat := recv_full (congrArg Prod.fst hinto)
      have hboth : w1.writes ++ [(buf, len.toNat + 1)] =
          w.writes ++ [(buf, (arriving len { w with heap }).length), (buf, len.toNat + 1)] := by
        rw [hwrites, List.append_assoc]
        rfl
      exact ⟨_, _, malloc_adds e [_, _] hboth hblocks hnext, ends_within hgot (Or.inr ⟨rfl, hfull⟩)⟩

/-- The name at the head of the stream gets a buffer that holds it. -/
def NameFits (w : World) : Prop := ∀ len w1, recvFull 4 w = (some len, w1) → LengthFits (UInt32.ofNat (ofLE len)) w1

theorem recvString_stays (held : List Ptr) : StaysWithin (recvString held) NameFits := by
  have h := stays_attempt (recvFull_stays 4) (release_adds held) fun len => recvName_stays held (UInt32.ofNat (ofLE len))
  exact h.of_iff fun w => and_iff_right trivial

/-- A body without its size. -/
def recvContent (held : List Ptr) (size : UInt32) (w : World) : Option (UInt32 × Option (Ptr × Bytes)) × World :=
  if 0 < size then
    match malloc w.heap size.toNat with
    | (none, heap) => (none, release held { w with heap, errno := ENOMEM })
    | (some buf, heap) =>
      attempt (recvInto buf size.toNat { w with heap }) (release (held ++ [buf])) fun bytes w =>
      (some (size, some (buf, bytes)), w)
  else (some (size, none), w)

/-- Its buffer has as many bytes as it has. -/
theorem recvContent_stays (held : List Ptr) (size : UInt32) : StaysWithin (recvContent held size) fun _ => True := by
  intro w
  by_cases hpos : 0 < size
  · cases e : malloc w.heap size.toNat with
    | mk buf heap =>
    cases buf with
    | none =>
      have hcontent : recvContent held size w = (none, release held { w with heap, errno := ENOMEM }) := by
        simp only [recvContent, if_pos hpos, e]
      rw [hcontent]
      exact ⟨[], [], malloc_adds_none e rfl rfl (Nat.le_refl _), iff_of_true (within_nil []) trivial⟩
    | some buf =>
      obtain ⟨hwrites, hheap⟩ := recvInto_keeps buf size.toNat { w with heap }
      have hcontent : recvContent held size w = attempt (recvInto buf size.toNat { w with heap }) (release (held ++ [buf]))
          fun bytes w => (some (size, some (buf, bytes)), w) := by simp only [recvContent, if_pos hpos, e]
      have hwithin : Within ([((recv size.toNat { w with heap }).1.getD []).length].map fun n => (buf, n))
          [(buf, size.toNat)] := by
        intro s hs
        rw [List.mem_singleton.mp hs]
        exact ⟨_, List.mem_singleton_self _, recv_length_le⟩
      rw [hcontent]
      cases hinto : recvInto buf size.toNat { w with heap } with
      | mk bytes w1 =>
      rw [hinto] at hwrites hheap
      have hblocks : w1.heap.blocks = heap.blocks := congrArg _ hheap
      have hnext : heap.next ≤ w1.heap.next := Nat.le_of_eq (congrArg _ hheap).symm
      cases bytes with
      | none => exact ⟨_, _, malloc_adds e [_] hwrites hblocks hnext, iff_of_true hwithin trivial⟩
      | some bytes => exact ⟨_, _, malloc_adds e [_] hwrites hblocks hnext, iff_of_true hwithin trivial⟩
  · have hcontent : recvContent held size w = (some (size, none), w) := by simp only [recvContent, if_neg hpos]
    rw [hcontent]
    exact ⟨[], [], adds_none rfl rfl (Nat.le_refl _), iff_of_true (within_nil []) trivial⟩

theorem recvBody_stays (held : List Ptr) : StaysWithin (recvBody held) fun _ => True :=
  stays_attempt_true (recvFull_stays 4) (release_adds held) fun size => recvContent_stays held (UInt32.ofNat (ofLE size))

theorem recvCreate_stays (exchange routingKey : Ptr × CString) (body : UInt32 × Option (Ptr × Bytes)) :
    StaysWithin (recvCreate exchange routingKey body) fun _ => True := by
  intro w
  obtain ⟨granted, gone, hentry⟩ :=
    create_ledger (some exchange.2) (some routingKey.2) (body.2.map (·.2)) body.1.toUInt64 w.heap
  refine ⟨[], granted, ⟨(List.append_nil _).symm, hentry.blocks, hentry.next, hentry.range⟩, ?_⟩
  exact iff_of_true (within_nil granted) trivial

theorem recvProperties_stays (m : Message) : StaysWithin (recvProperties m) fun _ => True := by
  have hexit : ∀ w : World, Adds w { w with heap := messageFree m w.heap } [] [] :=
    fun w => adds_none rfl rfl (Nat.le_refl _)
  exact stays_attempt_true (recvFull_stays 4) hexit fun _ =>
    stays_attempt_true (recvFull_stays 8) hexit fun _ =>
      stays_attempt_true (recvFull_stays 1) hexit fun _ => stays_quiet fun _ => adds_none rfl rfl (Nat.le_refl _)

/-- Both names, as far as the reader gets to them. -/
def BuffersFit (fd : Int) (w : World) : Prop :=
  0 ≤ fd → ∀ magic w1, recvFull 4 w = (some magic, w1) → UInt32.ofNat (ofLE magic) = MESSAGE_MAGIC →
    NameFits w1 ∧ ∀ exchange w2, recvString [] w1 = (some exchange, w2) → NameFits w2

theorem receive_stays (fd : Int) : StaysWithin (receiveMessageData fd) (BuffersFit fd) := by
  by_cases hfd : fd < 0
  · intro w
    rw [receiveMessageData, if_pos hfd]
    refine ⟨[], [], adds_none rfl rfl (Nat.le_refl _), iff_of_true (within_nil []) fun h => ?_⟩
    omega
  have hid : ∀ w : World, Adds w (id w) [] [] := fun w => adds_none rfl rfl (Nat.le_refl _)
  have hnamed := stays_attempt (recvString_stays []) hid fun exchange =>
    stays_attempt_true (recvString_stays [exchange.1]) hid fun routingKey =>
      stays_attempt_true (recvBody_stays [exchange.1, routingKey.1]) hid fun body =>
        stays_attempt_true (recvCreate_stays exchange routingKey body) hid recvProperties_stays
  have hchecked : ∀ magic : Bytes, StaysWithin (fun w =>
      if UInt32.ofNat (ofLE magic) ≠ MESSAGE_MAGIC then (none, w) else
      attempt (recvString [] w) id fun exchange w =>
      attempt (recvString [exchange.1] w) id fun routingKey w =>
      attempt (recvBody [exchange.1, routingKey.1] w) id fun body w =>
      attempt (recvCreate exchange routingKey body w) id recvProperties)
      (fun w => UInt32.ofNat (ofLE magic) = MESSAGE_MAGIC →
        NameFits w ∧ ∀ exchange w2, recvString [] w = (some exchange, w2) → NameFits w2) := by
    intro magic
    by_cases hmagic : UInt32.ofNat (ofLE magic) = MESSAGE_MAGIC
    · simp only [ne_eq, hmagic, not_true, if_false, true_implies]
      exact hnamed
    · simp only [ne_eq, hmagic, not_false_iff, if_true, false_implies]
      exact stays_quiet fun w => adds_none rfl rfl (Nat.le_refl _)
  have hafter : StaysWithin _ (BuffersFit fd) := (stays_attempt (recvFull_stays 4) hid hchecked).of_iff fun w =>
    ⟨fun h _ => h.2, fun h => ⟨trivial, h (by omega)⟩⟩
  intro w
  rw [receiveMessageData, if_neg hfd]
  exact hafter w

/-- The stores a call notes are in the blocks it was granted. -/
def InBounds (w w' : World) : Prop :=
  ∃ stores blocks, w'.writes = w.writes ++ stores ∧ w'.heap.blocks = w.heap.blocks ++ blocks ∧ Within stores blocks

theorem inBounds_iff {w w' : World} {stores blocks : List (Ptr × Nat)} (h : Adds w w' stores blocks) :
    InBounds w w' ↔ Within stores blocks := by
  constructor
  · rintro ⟨stores', blocks', hwrites, hheap, hwithin⟩
    rw [h.writes] at hwrites
    rw [h.heap] at hheap
    rwa [List.append_cancel_left hwrites, List.append_cancel_left hheap]
  · exact fun hwithin => ⟨stores, blocks, h.writes, h.heap, hwithin⟩

/-- Whatever bytes come, however the reads fall short and whichever requests are refused. -/
theorem stores_in_bounds_iff (fd : Int) (w : World) : InBounds w (receiveMessageData fd w).2 ↔ BuffersFit fd w := by
  obtain ⟨stores, blocks, hadds, hwithin⟩ := receive_stays fd w
  rw [inBounds_iff hadds, hwithin]

/-- An exchange of 2^32 - 1 bytes, of which one arrives. -/
def wrappingLength : World := inletOf (u32 MESSAGE_MAGIC ++ u32 4294967295 ++ [97]) fun _ => 64

theorem a_length_that_wraps_overruns : ¬ InBounds wrappingLength (receiveMessageData 3 wrappingLength).2 := by
  rintro ⟨stores, blocks, hwrites, hheap, hwithin⟩
  have hstores : (receiveMessageData 3 wrappingLength).2.writes = [(⟨0, .plain⟩, 1)] := by decide +kernel
  have hblocks : (receiveMessageData 3 wrappingLength).2.heap.blocks = [(⟨0, .plain⟩, 0)] := by decide +kernel
  have hs : stores = [(⟨0, .plain⟩, 1)] := hwrites.symm.trans hstores
  have hb : blocks = [(⟨0, .plain⟩, 0)] := hheap.symm.trans hblocks
  rw [hs, hb] at hwithin
  obtain ⟨n, hn, hle⟩ := hwithin _ List.mem_cons_self
  rw [List.mem_singleton] at hn
  cases hn
  exact absurd hle (by decide)

end RabbitMQ.Core
