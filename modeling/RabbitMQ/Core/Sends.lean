/-
  RabbitMQ.Core.Sends — calls of `connection_send` in progress at once on one connection.

  A schedule says which call takes the next step. The mutex is released before the first
  `send`, so two frames can be written into each other (`two_sends_interleave`). As long as
  a call sends only while no other call has written part of its frame, the stream is whole
  frames, one for each call that wrote its own, and the part of at most one more
  (`framed_step`), and the peer decodes the messages sent (`sends_apart_stay_whole`).
-/

import RabbitMQ.Core.Connection
import RabbitMQ.Core.Framing
import RabbitMQ.Lib.Run

namespace RabbitMQ.Core

open Lib

/-! ## Where the calls stand -/

section Calls

variable (f : Nat → Frame)

/-- Step `i` of the calls that send the messages of `f`. -/
def sendNext (s : Sending) (i : Nat) : Sending := sendStep (fun i => (f i).fields) s i

def bufsOf (i : Nat) : List Bytes := (sends (f i).fields).getD []

/-- Call `i` has written all of its frame. -/
def Written (s : Sending) (i : Nat) : Prop := (∃ fd, s.progress i = .sending fd []) ∨ s.progress i = .returned 1

/-- Call `i` has written some of its buffers and not all. -/
def Partway (s : Sending) (i : Nat) : Prop :=
  ∃ fd left, s.progress i = .sending fd left ∧ left ≠ [] ∧ left.length < (bufsOf f i).length

/-- If call `i` is about to send, no other call is partway. -/
def Apart (s : Sending) (i : Nat) : Prop :=
  (∃ fd buf left, s.progress i = .sending fd (buf :: left)) → ∀ j, j ≠ i → ¬ Partway f s j

theorem sends_bufsOf (i : Nat) : sends (f i).fields = some (bufsOf f i) := rfl

theorem bufsOf_flatten (i : Nat) : (bufsOf f i).flatten = (f i).encode := rfl

theorem bufsOf_ne_nil (i : Nat) : bufsOf f i ≠ [] := by
  intro h
  have hlen := congrArg List.length h
  simp [bufsOf, sends, Frame.fields] at hlen

/-! ## What is on the stream -/

/-- The frames of `order`, then what the call partway has written of its own. -/
structure Framed (s : Sending) (order : List Nat) (tail : Bytes) : Prop where
  complete : Complete s.outlet
  stream : s.outlet.stream = order.flatMap (fun i => (f i).encode) ++ tail
  nodup : order.Nodup
  mem : ∀ i, i ∈ order ↔ Written s i
  each : ∀ i fd left, s.progress i = .sending fd left →
    ∃ gone, bufsOf f i = gone ++ left ∧ (left = [] ∨ gone = [] ∨ gone.flatten = tail)
  idle : (∀ i, ¬ Partway f s i) → tail = []

variable {f}

/-- A call that is not partway has written nothing or everything. -/
theorem each_apart {s : Sending} {j : Nat} {fd : Int} {left : List Bytes} (hs : s.progress j = .sending fd left)
    (hp : ¬ Partway f s j) {gone : List Bytes} (hb : bufsOf f j = gone ++ left) : left = [] ∨ gone = [] := by
  by_cases hl : left = []
  · exact Or.inl hl
  · refine Or.inr (List.length_eq_zero_iff.mp ?_)
    by_contra hg
    refine hp ⟨fd, left, hs, hl, ?_⟩
    rw [hb, List.length_append]
    omega

/-- A step that writes nothing: call `i` goes from one state to another in which it has
    written as much as before. -/
theorem framed_quiet {s : Sending} {order : List Nat} {tail : Bytes} (h : Framed f s order tail) {i : Nat} {p : Progress}
    (hnot : ¬ Partway f s i)
    (hw : Written { s with progress := Function.update s.progress i p } i ↔ Written s i)
    (hp : ∀ fd left, p = .sending fd left → left = bufsOf f i) :
    Framed f { s with progress := Function.update s.progress i p } order tail := by
  have hother : ∀ j, j ≠ i → Function.update s.progress i p j = s.progress j :=
    fun j hj => Function.update_of_ne hj p s.progress
  have hpart : ∀ j, Partway f { s with progress := Function.update s.progress i p } j → Partway f s j := by
    intro j hp'
    obtain ⟨fd, left, hs, hl, hlt⟩ := hp'
    by_cases hj : j = i
    · subst hj
      simp only [Function.update_self] at hs
      rw [hp fd left hs] at hlt
      exact absurd hlt (Nat.lt_irrefl _)
    · simp only [hother j hj] at hs
      exact ⟨fd, left, hs, hl, hlt⟩
  refine ⟨h.complete, h.stream, h.nodup, fun j => ?_, fun j fd left hs => ?_, fun hidle => h.idle fun j hj => ?_⟩
  · rw [h.mem j]
    by_cases hj : j = i
    · subst hj; exact hw.symm
    · simp only [Written, hother j hj]
  · by_cases hj : j = i
    · subst hj
      simp only [Function.update_self] at hs
      exact ⟨[], (hp fd left hs).symm, Or.inr (Or.inl rfl)⟩
    · simp only [hother j hj] at hs
      exact h.each j fd left hs
  · by_cases hji : j = i
    · subst hji; exact hnot hj
    · obtain ⟨fd, left, hs, hl, hlt⟩ := hj
      exact hidle j ⟨fd, left, by simpa only [hother j hji] using hs, hl, hlt⟩

/-- A call that is not partway is framed whatever the tail is. -/
theorem framed_each {s : Sending} {order : List Nat} {tail : Bytes} (h : Framed f s order tail) {j : Nat} {fd : Int}
    {left : List Bytes} (hs : s.progress j = .sending fd left) (hp : ¬ Partway f s j) (tail' : Bytes) :
    ∃ gone, bufsOf f j = gone ++ left ∧ (left = [] ∨ gone = [] ∨ gone.flatten = tail') := by
  obtain ⟨gone, hb, -⟩ := h.each j fd left hs
  rcases each_apart hs hp hb with hl | hg
  · exact ⟨gone, hb, Or.inl hl⟩
  · exact ⟨gone, hb, Or.inr (Or.inl hg)⟩

/-- The tail is what the sending call has written of its frame, when no other is partway. -/
theorem framed_tail {s : Sending} {order : List Nat} {tail : Bytes} (h : Framed f s order tail) {i : Nat} {fd : Int}
    {buf : Bytes} {left : List Bytes} (hs : s.progress i = .sending fd (buf :: left))
    (hapart : ∀ j, j ≠ i → ¬ Partway f s j) :
    ∃ gone, bufsOf f i = gone ++ buf :: left ∧ tail = gone.flatten := by
  obtain ⟨gone, hb, hcase⟩ := h.each i fd (buf :: left) hs
  refine ⟨gone, hb, ?_⟩
  rcases hcase with hnil | rfl | he
  · cases hnil
  · have hnone : ∀ j, ¬ Partway f s j := by
      intro j hj
      by_cases hji : j = i
      · subst hji
        obtain ⟨fd', left', hs', -, hlt⟩ := hj
        rw [hs, Progress.sending.injEq] at hs'
        rw [← hs'.2, hb, List.nil_append] at hlt
        exact absurd hlt (Nat.lt_irrefl _)
      · exact hapart j hji hj
    rw [h.idle hnone, List.flatten_nil]
  · exact he.symm

/-- A call that may send writes its next buffer: the stream grows by it, and its frame is
    part of the stream's whole frames when it was the last. -/
theorem framed_send {s : Sending} {order : List Nat} {tail : Bytes} (h : Framed f s order tail) {i : Nat} {fd : Int}
    {buf : Bytes} {left : List Bytes} (hs : s.progress i = .sending fd (buf :: left))
    (hapart : ∀ j, j ≠ i → ¬ Partway f s j) :
    ∃ order' tail', Framed f ⟨s.conn, { s.outlet with stream := s.outlet.stream ++ buf, calls := s.outlet.calls + 1 },
      Function.update s.progress i (.sending fd left)⟩ order' tail' := by
  obtain ⟨gone, hb, htail⟩ := framed_tail h hs hapart
  have hother : ∀ j, j ≠ i → Function.update s.progress i (.sending fd left) j = s.progress j :=
    fun j hj => Function.update_of_ne hj _ _
  by_cases hl : left = []
  · -- the last buffer
    subst hl
    have hnew : i ∉ order := by
      rw [h.mem i]
      intro hw
      rcases hw with ⟨fd', hw⟩ | hw
      · rw [hs] at hw; cases hw
      · rw [hs] at hw; cases hw
    refine ⟨order ++ [i], [], h.complete, ?_, ?_, ?_, ?_, fun _ => rfl⟩
    · have hf : (f i).encode = gone.flatten ++ buf := by
        rw [← bufsOf_flatten, hb, List.flatten_append, List.flatten_singleton]
      simp only [h.stream, htail, List.flatMap_append, List.flatMap_singleton, hf, List.append_assoc, List.append_nil]
    · exact h.nodup.append (List.nodup_singleton i) (by simpa using hnew)
    · intro j
      rw [List.mem_append, List.mem_singleton, h.mem j]
      by_cases hj : j = i
      · subst hj
        simp [Written]
      · simp only [Written, hother j hj, hj, or_false]
    · intro j fd' left' hs'
      by_cases hj : j = i
      · subst hj
        simp only [Function.update_self, Progress.sending.injEq] at hs'
        exact ⟨gone ++ [buf], by rw [hb, ← hs'.2, List.append_nil], Or.inl hs'.2.symm⟩
      · simp only [hother j hj] at hs'
        exact framed_each h hs' (hapart j hj) _
  · refine ⟨order, (gone ++ [buf]).flatten, h.complete, ?_, h.nodup, ?_, ?_, ?_⟩
    · simp only [h.stream, htail, List.flatten_append, List.flatten_singleton, List.append_assoc]
    · intro j
      rw [h.mem j]
      by_cases hj : j = i
      · subst hj
        simp [Written, hs, hl]
      · simp only [Written, hother j hj]
    · intro j fd' left' hs'
      by_cases hj : j = i
      · subst hj
        simp only [Function.update_self, Progress.sending.injEq] at hs'
        rw [← hs'.2]
        exact ⟨gone ++ [buf], by rw [hb, List.append_assoc, List.singleton_append], Or.inr (Or.inr rfl)⟩
      · simp only [hother j hj] at hs'
        exact framed_each h hs' (hapart j hj) _
    · intro hidle
      refine absurd ⟨fd, left, Function.update_self .., hl, ?_⟩ (hidle i)
      rw [hb, List.length_append, List.length_cons]
      omega

theorem framed_step {s : Sending} {i : Nat} (h : ∃ order tail, Framed f s order tail) (hapart : Apart f s i) :
    ∃ order tail, Framed f (sendNext f s i) order tail := by
  obtain ⟨order, tail, h⟩ := h
  have hnone : ∀ {p : Progress}, s.progress i = p → (∀ fd left, p = .sending fd left → left = []) → ¬ Partway f s i := by
    intro p hp hq hpart
    obtain ⟨fd, left, hs, hl, -⟩ := hpart
    exact hl (hq fd left (hp.symm.trans hs))
  simp only [sendNext, sendStep]
  cases hs : s.progress i with
  | called =>
    have hnot := hnone hs (by intro fd left e; cases e)
    have hw : ¬ Written s i := by simp [Written, hs]
    have hfail : ∃ order tail, Framed f { s with progress := Function.update s.progress i (.returned 0) } order tail :=
      ⟨order, tail, framed_quiet h hnot (by simp [Written, hs]) (by intro fd left e; cases e)⟩
    simp only
    split
    · exact hfail
    · split
      · exact hfail
      · rw [sends_bufsOf]
        refine ⟨order, tail, framed_quiet h hnot ?_ ?_⟩
        · simp [Written, hs, bufsOf_ne_nil f i]
        · intro fd left e
          rw [Progress.sending.injEq] at e
          exact e.2.symm
  | sending fd left =>
    cases left with
    | nil =>
      refine ⟨order, tail, framed_quiet h (hnone hs ?_) ?_ ?_⟩
      · intro fd' left' e
        rw [Progress.sending.injEq] at e
        exact e.2.symm
      · simp [Written, hs]
      · intro fd' left' e
        cases e
    | cons buf left =>
      have hsend : send buf s.outlet =
          (some buf.length, { s.outlet with stream := s.outlet.stream ++ buf, calls := s.outlet.calls + 1 }) := by
        simp only [send, h.complete s.outlet.calls]
      simp only [hsend, if_true]
      exact framed_send h hs (hapart ⟨fd, buf, left, hs⟩)
  | returned val => exact ⟨order, tail, h⟩

/-- A step of one call leaves the others where they are. -/
theorem sendNext_other {s : Sending} {i j : Nat} (hj : j ≠ i) : (sendNext f s i).progress j = s.progress j := by
  have hupd : ∀ p, Function.update s.progress i p j = s.progress j := fun p => Function.update_of_ne hj p s.progress
  simp only [sendNext, sendStep]
  cases s.progress i with
  | called =>
    simp only
    split
    · exact hupd _
    · split
      · exact hupd _
      · rw [sends_bufsOf]
        exact hupd _
  | sending fd left =>
    cases left with
    | nil => exact hupd _
    | cons buf left =>
      simp only
      split
      · exact hupd _
      · exact hupd _
  | returned val => rfl

theorem run_alone_other {s : Sending} {i j n : Nat} (hj : j ≠ i) :
    (Run.run (sendNext f) s (List.replicate n i)).progress j = s.progress j := by
  induction n generalizing s with
  | zero => rfl
  | succ n ih => rw [List.replicate_succ, Run.run_cons, ih, sendNext_other hj]

/-- A call that takes its steps in a row. -/
theorem along_alone {s : Sending} {i n : Nat} (h : ∀ j, j ≠ i → ¬ Partway f s j) :
    Run.Along (sendNext f) (Apart f) s (List.replicate n i) := by
  induction n generalizing s with
  | zero => trivial
  | succ n ih =>
    refine ⟨fun _ => h, ih fun j hj hp => h j hj ?_⟩
    rwa [Partway, sendNext_other hj] at hp

end Calls

/-! ## Runs -/

/-- Whole frames of some calls, each once, and part of at most one more; when every call
    made has returned, exactly the frames of those that returned 1, and the peer gets their
    messages. -/
def StayWhole (f : Nat → Frame) (s : Sending) : Prop :=
  ∃ (order : List Nat) (tail : Bytes), order.Nodup ∧
    s.outlet.stream = order.flatMap (fun i => (f i).encode) ++ tail ∧ (∃ i, tail <+: (f i).encode) ∧
    ((∀ i, s.progress i = .called ∨ ∃ val, s.progress i = .returned val) →
      tail = [] ∧ (∀ i, i ∈ order ↔ s.progress i = .returned 1) ∧
        PeerGets s.outlet.stream (order.map fun i => (f i).fields))

theorem framed_whole {f : Nat → Frame} {s : Sending} {order : List Nat} {tail : Bytes} (h : Framed f s order tail) :
    StayWhole f s := by
  refine ⟨order, tail, h.nodup, h.stream, ?_, ?_⟩
  · by_cases hp : ∃ i, Partway f s i
    · obtain ⟨i, fd, left, hs, hl, hlt⟩ := hp
      obtain ⟨gone, hb, hcase⟩ := h.each i fd left hs
      refine ⟨i, left.flatten, ?_⟩
      rcases hcase with hnil | hnil | he
      · exact absurd hnil hl
      · rw [hb, hnil, List.nil_append] at hlt
        exact absurd hlt (Nat.lt_irrefl _)
      · rw [← he, ← List.flatten_append, ← hb, bufsOf_flatten]
    · rw [h.idle fun i hi => hp ⟨i, hi⟩]
      exact ⟨0, List.nil_prefix⟩
  · intro hdone
    have hnot : ∀ i fd left, s.progress i ≠ .sending fd left := by
      intro i fd left hs
      rcases hdone i with hc | ⟨val, hc⟩
      · rw [hs] at hc; cases hc
      · rw [hs] at hc; cases hc
    have htail : tail = [] := h.idle fun i ⟨fd, left, hs, _⟩ => hnot i fd left hs
    refine ⟨htail, ?_, ?_⟩
    · intro i
      rw [h.mem i]
      constructor
      · intro hs
        rcases hs with ⟨fd, hs⟩ | hs
        · exact absurd hs (hnot i fd [])
        · exact hs
      · exact Or.inr
    · have hpeer := peer_gets_frames (order.map f)
      rw [List.flatMap_map, List.map_map] at hpeer
      rw [h.stream, htail, List.append_nil]
      exact hpeer

/-- Calls whose sends do not meet leave whole frames. -/
theorem sends_apart_stay_whole (f : Nat → Frame) {s : Sending} (hc : Complete s.outlet) (hempty : s.outlet.stream = [])
    (hnew : ∀ i, s.progress i = .called) {schedule : List Nat} (h : Run.Along (sendNext f) (Apart f) s schedule) :
    StayWhole f (Run.run (sendNext f) s schedule) := by
  have h0 : ∃ order tail, Framed f s order tail := by
    refine ⟨[], [], hc, by rw [hempty]; rfl, List.nodup_nil, ?_, ?_, fun _ => rfl⟩
    · intro i
      simp [Written, hnew i]
    · intro i fd left hs
      rw [hnew i] at hs
      cases hs
  have hstep : ∀ s i, (∃ order tail, Framed f s order tail) → Apart f s i →
      ∃ order tail, Framed f (sendNext f s i) order tail := fun _ _ => framed_step
  obtain ⟨order, tail, hr⟩ := Run.along_inv hstep h0 h
  exact framed_whole hr

/-- Call 0 sends `twoBytes`, every other call `nothing`. -/
def twoMessages (i : Nat) : Frame := if i = 0 then twoBytes else nothing

def connectedSending : Sending := ⟨⟨3, .connected, 1, true, false⟩, ⟨[], fun _ => .all, 0⟩, fun _ => .called⟩

/-- Twelve steps each, in turn: both calls pass the status check before either writes. -/
def takingTurns : List Nat := (List.replicate 12 [0, 1]).flatten

/-- Two magic numbers in a row begin no frame. -/
theorem two_sends_interleave :
    ¬ StayWhole twoMessages (Run.run (sendNext twoMessages) connectedSending takingTurns) := by
  intro hwhole
  obtain ⟨order, tail, -, hs, ⟨i, hi⟩, -⟩ := hwhole
  have hstart : (Run.run (sendNext twoMessages) connectedSending takingTurns).outlet.stream.take 8 =
      u32 MESSAGE_MAGIC ++ u32 MESSAGE_MAGIC := by decide +kernel
  have hframe : ∀ i, 8 ≤ (twoMessages i).encode.length ∧
      (twoMessages i).encode.take 8 ≠ u32 MESSAGE_MAGIC ++ u32 MESSAGE_MAGIC := by
    intro i
    unfold twoMessages
    split
    · decide
    · decide
  rw [hs] at hstart
  cases order with
  | nil =>
    rw [List.flatMap_nil, List.nil_append] at hstart
    have hpre : u32 MESSAGE_MAGIC ++ u32 MESSAGE_MAGIC <+: (twoMessages i).encode := by
      rw [← hstart]
      exact (List.take_prefix 8 tail).trans hi
    exact (hframe i).2 (List.prefix_iff_eq_take.mp hpre).symm
  | cons j order =>
    rw [List.flatMap_cons, List.append_assoc, List.take_append_of_le_length (hframe j).1] at hstart
    exact (hframe j).2 hstart

theorem sends_apart_stay_whole_in_turn : StayWhole twoMessages
    (Run.run (sendNext twoMessages) connectedSending (List.replicate 12 0 ++ List.replicate 12 1)) := by
  have hnone : ∀ j, ¬ Partway twoMessages connectedSending j := by
    intro j hp
    obtain ⟨fd, left, hs, -⟩ := hp
    cases hs
  refine sends_apart_stay_whole twoMessages (fun _ => rfl) rfl (fun _ => rfl) (Run.along_append.mpr ⟨?_, ?_⟩)
  · exact along_alone fun j _ => hnone j
  · apply along_alone
    intro j _ hp
    by_cases hj : j = 0
    · obtain ⟨fd, left, hs, -⟩ := hp
      have hret : (Run.run (sendNext twoMessages) connectedSending (List.replicate 12 0)).progress 0 = .returned 1 := by
        decide +kernel
      rw [hj, hret] at hs
      cases hs
    · exact hnone j (by rwa [Partway, run_alone_other hj] at hp)

end RabbitMQ.Core
