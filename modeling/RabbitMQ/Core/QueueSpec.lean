/-
  RabbitMQ.Core.QueueSpec — what each critical section of `queue.c` does, in lists.

  A `Store` is what a queue is for: the ready messages in order, the deliveries in order,
  the next tag. `Does s c s' o` lists everything a call may do to a store: the abstract
  machine. `queue_does`: on a queue whose ring is sound (`RingOk`) every call keeps it
  sound and does to the lists exactly one of those things. All that is said about runs is
  proved from `Does`; only this module looks at slots, wrapped indices and array cells.
-/

import RabbitMQ.Core.Queue

namespace RabbitMQ.Core

open Lib

variable {μ : Type}

/-! ## The abstract store -/

structure Store (μ : Type) where
  capacity : Nat
  ready : List μ
  unacked : List (DeliveryInfo μ)
  nextTag : UInt64

def live (l : List (DeliveryInfo μ)) : List (DeliveryInfo μ) := l.filter isLive

/-- The messages a pass at `now` takes back, in delivery order. -/
def due (now timeout : Int) (l : List (DeliveryInfo μ)) : List μ := (l.filter (expired now timeout)).map (·.message)

def settle (now timeout : Int) (info : DeliveryInfo μ) : DeliveryInfo μ :=
  if expired now timeout info then { info with status := .acknowledged } else info

/-- `requeued_count > 0` after `n` increments. -/
def counted (n : Nat) : Prop := 0 < Int32.ofNat n

instance (n : Nat) : Decidable (counted n) := inferInstanceAs (Decidable (0 < Int32.ofNat n))

/-- `e` is the first entry with tag `t`. -/
def Found (l : List (DeliveryInfo μ)) (t : UInt64) (pre : List (DeliveryInfo μ)) (e : DeliveryInfo μ)
    (post : List (DeliveryInfo μ)) : Prop :=
  l = pre ++ e :: post ∧ e.deliveryTag = t ∧ ∀ x ∈ pre, x.deliveryTag ≠ t

/-- The calls that leave a store as it was. -/
def Idle (s : Store μ) : Call μ → Prop
  | .enqueue message | .tryEnqueue message => message = none ∨ s.ready.length = s.capacity
  | .dequeue _ realloc | .tryDequeue _ realloc => s.ready = [] ∨ realloc = false
  | .ack tag | .reject tag _ => ∀ x ∈ s.unacked, x.deliveryTag ≠ tag
  | .processTimeouts _ timeout => timeout ≤ 0
  | .size | .setDurable _ => True

inductive Does : Store μ → Call μ → Store μ → Out μ → Prop
  | nothing {s : Store μ} {c : Call μ} (val : Nat) : Idle s c → (c ≠ .size → val = 0) → Does s c s { val := val }
  | push {s : Store μ} {c : Call μ} (m : μ) : c = .enqueue (some m) ∨ c = .tryEnqueue (some m) →
      s.ready.length < s.capacity → Does s c { s with ready := s.ready ++ [m] } { val := 1 }
  | deliver {s : Store μ} {c : Call μ} (m : μ) (rest : List μ) (now : Int) (realloc : Bool) :
      c = .dequeue now realloc ∨ c = .tryDequeue now realloc → s.ready = m :: rest →
      Does s c { s with ready := rest, unacked := s.unacked ++ [⟨m, s.nextTag, now, .delivered⟩]
                        nextTag := s.nextTag + 1 } { got := some (s.nextTag, m) }
  | ack {s : Store μ} {t : UInt64} (pre : List (DeliveryInfo μ)) (e : DeliveryInfo μ)
      (post : List (DeliveryInfo μ)) : Found s.unacked t pre e post →
      Does s (.ack t) { s with unacked := live (pre ++ post) } { val := 1, freed := [e.message] }
  | discard {s : Store μ} {t : UInt64} (pre : List (DeliveryInfo μ)) (e : DeliveryInfo μ)
      (post : List (DeliveryInfo μ)) : Found s.unacked t pre e post →
      Does s (.reject t 0) { s with unacked := live (pre ++ post) } { val := 1, freed := [e.message] }
  | requeue {s : Store μ} {t : UInt64} {rq : Int} (pre : List (DeliveryInfo μ)) (e : DeliveryInfo μ)
      (post : List (DeliveryInfo μ)) : Found s.unacked t pre e post → rq ≠ 0 → s.ready.length < s.capacity →
      Does s (.reject t rq) { s with ready := e.message :: s.ready, unacked := live (pre ++ post) }
        { val := 1, requeued := [e.message] }
  /-- A requeue into a full ring. -/
  | overflow {s : Store μ} {t : UInt64} {rq : Int} (pre : List (DeliveryInfo μ)) (e : DeliveryInfo μ)
      (post : List (DeliveryInfo μ)) : Found s.unacked t pre e post → rq ≠ 0 → s.ready.length = s.capacity →
      Does s (.reject t rq) { s with unacked := live (pre ++ post) } { val := 1, freed := [e.message] }
  /-- A timeout pass: the first messages due fill the ring, the others are freed, and the
      entries settled are purged only when the pass counted a requeue. -/
  | pass {s : Store μ} {now timeout : Int} (d : List μ) (room : Nat) : 0 < timeout →
      d = due now timeout s.unacked → room = s.capacity - s.ready.length →
      Does s (.processTimeouts now timeout)
        { s with ready := (d.take room).reverse ++ s.ready
                 unacked := if counted (d.take room).length then live (s.unacked.map (settle now timeout))
                   else s.unacked.map (settle now timeout) }
        { freed := d.drop room, requeued := d.take room }

/-! ## The concrete queue's lists -/

def ready (q : Queue μ) : List μ := Circular.window q.messages q.capacity.toNat q.head.toNat q.size.toNat

def unacked (q : Queue μ) : List (DeliveryInfo μ) := Segment.seg q.unackedMessages q.unackedCount

def store (q : Queue μ) : Store μ := ⟨q.capacity.toNat, ready q, unacked q, q.nextDeliveryTag⟩

structure RingOk (q : Queue μ) : Prop where
  capPos : 0 < q.capacity.toNat
  capLt : q.capacity.toNat < 2 ^ 61
  headLt : q.head.toNat < q.capacity.toNat
  sizeLe : q.size.toNat ≤ q.capacity.toNat
  tailEq : q.tail.toNat = (q.head.toNat + q.size.toNat) % q.capacity.toNat

/-- A sound ring but for the bound on the capacity, which only moves of the head backwards
    need. -/
structure SlotsOk (q : Queue μ) : Prop where
  capPos : 0 < q.capacity.toNat
  headLt : q.head.toNat < q.capacity.toNat
  sizeLe : q.size.toNat ≤ q.capacity.toNat
  tailEq : q.tail.toNat = (q.head.toNat + q.size.toNat) % q.capacity.toNat

theorem RingOk.slots {q : Queue μ} (h : RingOk q) : SlotsOk q := ⟨h.capPos, h.headLt, h.sizeLe, h.tailEq⟩

/-- The slots that are free. -/
def room (q : Queue μ) : Nat := q.capacity.toNat - q.size.toNat

theorem SlotsOk.tailLt {q : Queue μ} (h : SlotsOk q) : q.tail.toNat < q.capacity.toNat := by
  rw [h.tailEq]; exact Nat.mod_lt _ h.capPos

@[simp] theorem ready_length (q : Queue μ) : (ready q).length = q.size.toNat := by simp [ready]

theorem ready_eq_nil {q : Queue μ} : ready q = [] ↔ q.size = 0 := by
  rw [ready, Circular.window_eq_nil, ← UInt64.toNat_inj]; rfl

/-! ## Ring arithmetic -/

theorem back_index {i c : UInt64} (h : i.toNat < c.toNat) (hc : c.toNat < 2 ^ 61) :
    ((i + c - 1) % c).toNat = Circular.back c.toNat i.toNat := by
  have hsum : (i + c).toNat = i.toNat + c.toNat := by
    rw [UInt64.toNat_add, Nat.mod_eq_of_lt (by omega)]
  have hle : (1 : UInt64) ≤ i + c := by rw [UInt64.le_iff_toNat_le, hsum]; simp; omega
  rw [UInt64.toNat_mod, UInt64.toNat_sub_of_le _ _ hle, hsum]
  rfl

theorem succ_size {n c : UInt64} (h : n.toNat < c.toNat) : (n + 1).toNat = n.toNat + 1 := by
  have := c.toNat_lt
  rw [UInt64.toNat_add, Nat.mod_eq_of_lt (by simp; omega)]
  rfl

theorem next_index {i c : UInt64} (h : i.toNat < c.toNat) : ((i + 1) % c).toNat = (i.toNat + 1) % c.toNat := by
  rw [UInt64.toNat_mod, succ_size h]

theorem pred_size {n : UInt64} (h : n ≠ 0) : (n - 1).toNat + 1 = n.toNat := by
  have hpos : n.toNat ≠ 0 := fun e => h (UInt64.toNat_inj.mp e)
  have hle : (1 : UInt64) ≤ n := by rw [UInt64.le_iff_toNat_le]; simp; omega
  rw [UInt64.toNat_sub_of_le _ _ hle]
  simp only [UInt64.reduceToNat]; omega

theorem size_lt {q : Queue μ} (h : q.size.toNat ≤ q.capacity.toNat) (hf : q.size ≠ q.capacity) :
    q.size.toNat < q.capacity.toNat := by
  have : q.size.toNat ≠ q.capacity.toNat := fun e => hf (UInt64.toNat_inj.mp e)
  omega

theorem not_full {q : Queue μ} (h : RingOk q) (hf : q.size ≠ q.capacity) : q.size.toNat < q.capacity.toNat :=
  size_lt h.sizeLe hf

/-! ## The moves of the ring -/

theorem pushTail_slots {q : Queue μ} (h : SlotsOk q) (m : μ) (hf : q.size.toNat < q.capacity.toNat) :
    SlotsOk (pushTail q m) ∧ ready (pushTail q m) = ready q ++ [m] := by
  have hs : (q.size + 1).toNat = q.size.toNat + 1 := succ_size hf
  refine ⟨⟨h.capPos, h.headLt, ?_, ?_⟩, ?_⟩
  · simp only [pushTail, hs]; omega
  · simp only [pushTail, hs, next_index h.tailLt, h.tailEq]
    exact Circular.push_end _ _ _
  · simp only [ready, pushTail, hs, h.tailEq]
    exact Circular.window_push_back _ _ m hf

theorem pushTail_spec {q : Queue μ} (h : RingOk q) (m : μ) (hf : q.size.toNat < q.capacity.toNat) :
    RingOk (pushTail q m) ∧ ready (pushTail q m) = ready q ++ [m] := by
  obtain ⟨hslots, hready⟩ := pushTail_slots h.slots m hf
  exact ⟨⟨h.capPos, h.capLt, h.headLt, hslots.sizeLe, hslots.tailEq⟩, hready⟩

theorem pushHead_spec {q : Queue μ} (h : RingOk q) (m : μ) (hf : q.size.toNat < q.capacity.toNat) :
    RingOk (pushHead q m) ∧ ready (pushHead q m) = m :: ready q := by
  have hs : (q.size + 1).toNat = q.size.toNat + 1 := succ_size hf
  have hb := back_index h.headLt h.capLt
  refine ⟨⟨h.capPos, h.capLt, ?_, ?_, ?_⟩, ?_⟩
  · simp only [pushHead, hb]; exact Circular.back_lt _ h.capPos
  · simp only [pushHead, hs]; omega
  · simp only [pushHead, hs, hb, h.tailEq]
    exact (Circular.back_add _ h.headLt).symm
  · simp only [ready, pushHead, hs, hb]
    exact Circular.window_push_front _ m hf h.headLt

/-- A dequeue that cannot be tracked puts the head back where it was. -/
theorem unpop {q : Queue μ} (h : RingOk q) :
    ((q.head + 1) % q.capacity + q.capacity - 1) % q.capacity = q.head ∧ q.size - 1 + 1 = q.size := by
  have hlt : ((q.head + 1) % q.capacity).toNat < q.capacity.toNat := by
    rw [next_index h.headLt]; exact Nat.mod_lt _ h.capPos
  refine ⟨UInt64.toNat_inj.mp ?_, by simp⟩
  rw [back_index hlt h.capLt, next_index h.headLt, Circular.back_next h.headLt]

/-- `add_to_unacked` needs a larger array and does not get it. -/
def Refused (q : Queue μ) (realloc : Bool) : Prop := q.unackedCapacity ≤ q.unackedCount ∧ realloc = false

theorem takeHead_refused {q : Queue μ} {realloc : Bool} (now : Int) (h : RingOk q) (hr : Refused q realloc) :
    takeHead q now realloc = (none, q) := by
  obtain ⟨hhead, hsize⟩ := unpop h
  have hr' : q.unackedCapacity ≤ q.unackedCount ∧ realloc = false := hr
  simp only [takeHead, addToUnacked, hr', and_self, if_true, hhead, hsize]

theorem takeHead_spec {q : Queue μ} (h : RingOk q) (hs : q.size ≠ 0) (now : Int) (realloc : Bool) :
    (realloc = false ∧ takeHead q now realloc = (none, q)) ∨
    ∃ m q', takeHead q now realloc = (some (q.nextDeliveryTag, m), q') ∧ RingOk q' ∧ ready q = m :: ready q' ∧
      unacked q' = unacked q ++ [⟨m, q.nextDeliveryTag, now, .delivered⟩] ∧ q'.capacity = q.capacity ∧
      q'.nextDeliveryTag = q.nextDeliveryTag + 1 := by
  by_cases hr : q.unackedCapacity ≤ q.unackedCount ∧ realloc = false
  · exact Or.inl ⟨hr.2, takeHead_refused now h hr⟩
  · right
    have hsz := pred_size hs
    refine ⟨q.messages q.head.toNat, (takeHead q now realloc).2, ?_, ⟨?_, ?_, ?_, ?_, ?_⟩, ?_, ?_, ?_, ?_⟩
    · simp only [takeHead, addToUnacked, if_neg hr]
      split <;> rfl
    all_goals simp only [takeHead, addToUnacked, if_neg hr]
    · split <;> exact h.capPos
    · split <;> exact h.capLt
    · have hlt : (q.head.toNat + 1) % q.capacity.toNat < q.capacity.toNat := Nat.mod_lt _ h.capPos
      split <;> simpa only [next_index h.headLt] using hlt
    · have := h.sizeLe
      split <;> simp only <;> omega
    · have ht : q.tail.toNat = ((q.head.toNat + 1) % q.capacity.toNat + (q.size - 1).toNat) % q.capacity.toNat := by
        rw [h.tailEq, Circular.pop_end, hsz]
      split <;> simpa only [next_index h.headLt] using ht
    · have hw := Circular.window_pop q.messages (q.size - 1).toNat h.headLt
      rw [hsz] at hw
      split <;> simpa only [ready, next_index h.headLt] using hw
    · split <;> exact Segment.seg_push _ _ _
    · split <;> rfl
    · split <;> rfl

/-! ## The delivery array -/

theorem findTag_none {q : Queue μ} {t : UInt64} (h : findTag q t = none) : ∀ x ∈ unacked q, x.deliveryTag ≠ t := by
  intro x hx
  simpa using Segment.first_none h x hx

/-- Marking the entry found and cleaning up takes that entry and every settled one out. -/
theorem findTag_some {q : Queue μ} {t : UInt64} {i : Nat} (h : findTag q t = some i) :
    ∃ pre post, Found (unacked q) t pre (q.unackedMessages i) post ∧
      unacked (cleanUp (markAcknowledged q i)) = live (pre ++ post) := by
  obtain ⟨hi, htag, hpre⟩ := Segment.first_some h
  obtain ⟨post, hsplit, hset⟩ := Segment.seg_split q.unackedMessages hi
  refine ⟨Segment.seg q.unackedMessages i, post, ⟨hsplit, by simpa using htag, fun x hx => by simpa using hpre x hx⟩, ?_⟩
  simp only [unacked, cleanUp, markAcknowledged, Segment.seg_compact, hset]
  simp [live, isLive]

theorem unacked_cleanUp (q : Queue μ) : unacked (cleanUp q) = live (unacked q) := by
  simp only [unacked, cleanUp, Segment.seg_compact]; rfl

theorem ringOk_cleanUp {q : Queue μ} (h : RingOk q) : RingOk (cleanUp q) :=
  ⟨h.capPos, h.capLt, h.headLt, h.sizeLe, h.tailEq⟩

theorem ringOk_mark {q : Queue μ} (h : RingOk q) (i : Nat) : RingOk (markAcknowledged q i) :=
  ⟨h.capPos, h.capLt, h.headLt, h.sizeLe, h.tailEq⟩

@[simp] theorem ready_cleanUp (q : Queue μ) : ready (cleanUp q) = ready q := rfl
@[simp] theorem ready_mark (q : Queue μ) (i : Nat) : ready (markAcknowledged q i) = ready q := rfl

/-! ## The timeout pass -/

/-- What the first `n` turns of a pass have done. -/
structure PassAt (q : Queue μ) (now timeout : Int) (n : Nat) (p : Pass μ) : Prop where
  ring : RingOk p.q
  cap : p.q.capacity = q.capacity
  tag : p.q.nextDeliveryTag = q.nextDeliveryTag
  count : p.q.unackedCount = q.unackedCount
  done : Segment.seg p.q.unackedMessages n = (Segment.seg q.unackedMessages n).map (settle now timeout)
  ahead : ∀ i, n ≤ i → p.q.unackedMessages i = q.unackedMessages i
  requeued : p.requeued =
    (due now timeout (Segment.seg q.unackedMessages n)).take (q.capacity.toNat - q.size.toNat)
  freed : p.freed = (due now timeout (Segment.seg q.unackedMessages n)).drop (q.capacity.toNat - q.size.toNat)
  ready : RabbitMQ.Core.ready p.q = p.requeued.reverse ++ RabbitMQ.Core.ready q
  counter : p.requeuedCount = Int32.ofNat p.requeued.length

theorem due_snoc (now timeout : Int) (l : List (DeliveryInfo μ)) (x : DeliveryInfo μ) :
    due now timeout (l ++ [x]) = due now timeout l ++ if expired now timeout x then [x.message] else [] := by
  by_cases h : expired now timeout x = true <;> simp [due, h]

theorem passAt_zero {q : Queue μ} (h : RingOk q) (now timeout : Int) : PassAt q now timeout 0 ⟨q, 0, [], []⟩ :=
  ⟨h, rfl, rfl, rfl, rfl, fun _ _ => rfl, by simp [due], by simp [due], rfl, rfl⟩

theorem passAt_succ {q : Queue μ} {now timeout : Int} {n : Nat} {p : Pass μ} (hp : PassAt q now timeout n p)
    (hcap : q.size.toNat ≤ q.capacity.toNat) : PassAt q now timeout (n + 1) (timeoutStep now timeout p n) := by
  have hn : p.q.unackedMessages n = q.unackedMessages n := hp.ahead n (Nat.le_refl n)
  have hlen : p.q.size.toNat = p.requeued.length + q.size.toNat := by
    have := congrArg List.length hp.ready
    simpa using this
  simp only [timeoutStep, hn]
  by_cases he : expired now timeout (q.unackedMessages n) = true
  · have hset : settle now timeout (q.unackedMessages n) = { q.unackedMessages n with status := .acknowledged } := by
      simp [settle, he]
    have hdue : due now timeout (Segment.seg q.unackedMessages (n + 1)) =
        due now timeout (Segment.seg q.unackedMessages n) ++ [(q.unackedMessages n).message] := by
      rw [Segment.seg_succ, due_snoc, if_pos he]
    have hdone : Segment.seg (markAcknowledged p.q n).unackedMessages (n + 1) =
        (Segment.seg q.unackedMessages (n + 1)).map (settle now timeout) := by
      rw [Segment.seg_succ q.unackedMessages, List.map_append, ← hp.done, List.map_singleton, hset, ← hn]
      exact Segment.seg_push _ _ _
    have hahead : ∀ i, n + 1 ≤ i → (markAcknowledged p.q n).unackedMessages i = q.unackedMessages i := by
      intro i hi
      rw [← hp.ahead i (by omega)]
      exact Function.update_of_ne (by omega) _ _
    have hring : RingOk (markAcknowledged p.q n) := ringOk_mark hp.ring n
    simp only [he, if_true]
    by_cases hroom : (markAcknowledged p.q n).size < (markAcknowledged p.q n).capacity
    · -- a free slot: fewer messages than the room have been due so far
      have hlt : p.q.size.toNat < p.q.capacity.toNat := hroom
      obtain ⟨hring', hready'⟩ := pushHead_spec hring (q.unackedMessages n).message hlt
      have hshort : (due now timeout (Segment.seg q.unackedMessages n)).length < q.capacity.toNat - q.size.toNat := by
        have hl := congrArg List.length hp.requeued
        rw [List.length_take] at hl
        rw [hp.cap] at hlt
        omega
      have htake := hp.requeued
      have hdrop := hp.freed
      rw [List.take_of_length_le (by omega)] at htake
      rw [List.drop_of_length_le (by omega)] at hdrop
      rw [if_pos hroom]
      refine ⟨hring', hp.cap, hp.tag, hp.count, hdone, hahead, ?_, ?_, ?_, ?_⟩
      · rw [hdue, List.take_of_length_le (by simp; omega), ← htake]
      · rw [hdue, List.drop_of_length_le (by simp; omega), hdrop]
      · simp only [hready', ready_mark, hp.ready, List.reverse_append, List.reverse_singleton]
        rfl
      · simp [hp.counter]
    · -- the ring is full: all the room is taken
      have hge : q.capacity.toNat - q.size.toNat ≤ p.requeued.length := by
        have hle : ¬ p.q.size.toNat < p.q.capacity.toNat := hroom
        rw [hp.cap] at hle
        omega
      have hlong : q.capacity.toNat - q.size.toNat ≤ (due now timeout (Segment.seg q.unackedMessages n)).length := by
        have hl := congrArg List.length hp.requeued
        rw [List.length_take] at hl
        omega
      rw [if_neg hroom]
      refine ⟨hring, hp.cap, hp.tag, hp.count, hdone, hahead, ?_, ?_, hp.ready, hp.counter⟩
      · rw [hdue, List.take_append_of_le_length hlong]
        exact hp.requeued
      · rw [hdue, List.drop_append_of_le_length hlong, ← hp.freed]
  · have hset : settle now timeout (q.unackedMessages n) = q.unackedMessages n := by simp [settle, he]
    have hdue : due now timeout (Segment.seg q.unackedMessages (n + 1)) =
        due now timeout (Segment.seg q.unackedMessages n) := by
      rw [Segment.seg_succ, due_snoc, if_neg he, List.append_nil]
    rw [if_neg he]
    refine ⟨hp.ring, hp.cap, hp.tag, hp.count, ?_, fun i hi => hp.ahead i (by omega), ?_, ?_, hp.ready, hp.counter⟩
    · rw [Segment.seg_succ, Segment.seg_succ, List.map_append, hp.done, hn, List.map_singleton, hset]
    · rw [hdue]; exact hp.requeued
    · rw [hdue]; exact hp.freed

theorem passAt {q : Queue μ} (h : RingOk q) (now timeout : Int) (n : Nat) :
    PassAt q now timeout n ((List.range n).foldl (timeoutStep now timeout) ⟨q, 0, [], []⟩) := by
  induction n with
  | zero => exact passAt_zero h now timeout
  | succ n ih =>
    rw [List.range_succ, List.foldl_append]
    exact passAt_succ ih h.sizeLe

/-! ## Every call -/

theorem ack_does {q : Queue μ} (h : RingOk q) (t : UInt64) :
    RingOk (queueAck q t).1 ∧ Does (store q) (.ack t) (store (queueAck q t).1) (queueAck q t).2 := by
  unfold queueAck
  cases hf : findTag q t with
  | none => exact ⟨h, .nothing 0 (findTag_none hf) fun _ => rfl⟩
  | some i =>
    obtain ⟨pre, post, hfound, hlive⟩ := findTag_some hf
    refine ⟨ringOk_cleanUp (ringOk_mark h i), ?_⟩
    have := Does.ack (s := store q) pre _ post hfound
    rwa [← hlive] at this

theorem reject_does {q : Queue μ} (h : RingOk q) (t : UInt64) (rq : Int) :
    RingOk (queueReject q t rq).1 ∧
      Does (store q) (.reject t rq) (store (queueReject q t rq).1) (queueReject q t rq).2 := by
  unfold queueReject
  cases hf : findTag q t with
  | none => exact ⟨h, .nothing 0 (findTag_none hf) fun _ => rfl⟩
  | some i =>
    obtain ⟨pre, post, hfound, hlive⟩ := findTag_some hf
    have hring : RingOk (cleanUp (markAcknowledged q i)) := ringOk_cleanUp (ringOk_mark h i)
    simp only
    by_cases h0 : rq = 0
    · subst h0
      have := Does.discard (s := store q) pre _ post hfound
      rw [← hlive] at this
      exact ⟨hring, this⟩
    rw [if_neg h0]
    by_cases hfull : (cleanUp (markAcknowledged q i)).size = (cleanUp (markAcknowledged q i)).capacity
    · have hf : (ready q).length = q.capacity.toNat := by
        rw [ready_length]; exact congrArg UInt64.toNat hfull
      have := Does.overflow (s := store q) pre _ post hfound h0 hf
      rw [← hlive] at this
      rw [if_pos hfull]
      exact ⟨hring, this⟩
    · have hlt : q.size.toNat < q.capacity.toNat := not_full h hfull
      obtain ⟨hring', hready'⟩ := pushHead_spec hring (q.unackedMessages i).message hlt
      have := Does.requeue (s := store q) pre _ post hfound h0 (by simpa [store] using hlt)
      rw [← hlive] at this
      rw [if_neg hfull]
      refine ⟨hring', ?_⟩
      simp only [store, hready', ready_cleanUp, ready_mark]
      exact this

theorem timeouts_does {q : Queue μ} (h : RingOk q) (now timeout : Int) :
    RingOk (queueProcessTimeouts q now timeout).1 ∧
      Does (store q) (.processTimeouts now timeout) (store (queueProcessTimeouts q now timeout).1)
        (queueProcessTimeouts q now timeout).2 := by
  unfold queueProcessTimeouts
  by_cases ht : timeout ≤ 0
  · rw [if_pos ht]
    exact ⟨h, .nothing 0 ht fun _ => rfl⟩
  rw [if_neg ht]
  have hp := passAt h now timeout q.unackedCount
  generalize (List.range q.unackedCount).foldl (timeoutStep now timeout) ⟨q, 0, [], []⟩ = p at hp
  have hun : unacked p.q = (unacked q).map (settle now timeout) := by
    unfold unacked; rw [hp.count]; exact hp.done
  have hpass : Does (store q) (.processTimeouts now timeout) _ _ := .pass _ _ (by omega) rfl rfl
  simp only [store, ready_length] at hpass
  have hreq : p.requeued = (due now timeout (unacked q)).take (q.capacity.toNat - q.size.toNat) := hp.requeued
  have hfreed : p.freed = (due now timeout (unacked q)).drop (q.capacity.toNat - q.size.toNat) := hp.freed
  rw [← hreq, ← hfreed, ← hun, ← hp.ready] at hpass
  simp only [hp.counter]
  by_cases hc : counted p.requeued.length
  · have hs : store (cleanUp p.q) = ⟨q.capacity.toNat, ready p.q, live (unacked p.q), q.nextDeliveryTag⟩ := by
      rw [← hp.cap, ← hp.tag, ← unacked_cleanUp]; rfl
    rw [if_pos hc, ← hs] at hpass
    rw [if_pos (show 0 < Int32.ofNat p.requeued.length from hc)]
    exact ⟨ringOk_cleanUp hp.ring, hpass⟩
  · have hs : store p.q = ⟨q.capacity.toNat, ready p.q, unacked p.q, q.nextDeliveryTag⟩ := by
      rw [← hp.cap, ← hp.tag]; rfl
    rw [if_neg hc, ← hs] at hpass
    rw [if_neg (show ¬ 0 < Int32.ofNat p.requeued.length from hc)]
    exact ⟨hp.ring, hpass⟩

/-- In its critical section a call that may wait does what the one that does not does. -/
theorem call_enqueue (q : Queue μ) (message : Option μ) : call q (.enqueue message) = call q (.tryEnqueue message) := by
  cases message with
  | none => rfl
  | some m =>
    simp only [call, queueEnqueue, queueTryEnqueue]
    by_cases hfull : q.size = q.capacity
    · simp only [if_pos hfull]
    · simp only [if_neg hfull]

theorem call_dequeue (q : Queue μ) (now : Int) (realloc : Bool) :
    call q (.dequeue now realloc) = call q (.tryDequeue now realloc) := by
  simp only [call, queueDequeue, queueTryDequeue]
  by_cases hempty : q.size = 0
  · simp only [if_pos hempty]
  · simp only [if_neg hempty]

theorem enqueue_does {q : Queue μ} (h : RingOk q) {c : Call μ} {message : Option μ}
    (hc : c = .enqueue message ∨ c = .tryEnqueue message) :
    RingOk (call q (.tryEnqueue message)).1 ∧
      Does (store q) c (store (call q (.tryEnqueue message)).1) (call q (.tryEnqueue message)).2 := by
  cases message with
  | none =>
    refine ⟨h, .nothing 0 ?_ fun _ => rfl⟩
    rcases hc with rfl | rfl <;> exact Or.inl rfl
  | some m =>
    simp only [call, queueTryEnqueue]
    by_cases hfull : q.size = q.capacity
    · have hlen : (store q).ready.length = (store q).capacity := by simp [store, hfull]
      rw [if_pos hfull]
      refine ⟨h, .nothing 0 ?_ fun _ => rfl⟩
      rcases hc with rfl | rfl <;> exact Or.inr hlen
    · have hlt := not_full h hfull
      obtain ⟨hring, hready⟩ := pushTail_spec h m hlt
      rw [if_neg hfull]
      refine ⟨hring, ?_⟩
      have hpush := Does.push (s := store q) m hc (by simpa [store] using hlt)
      simp only [store, ← hready] at hpush ⊢
      exact hpush

theorem dequeue_does {q : Queue μ} (h : RingOk q) {c : Call μ} {now : Int} {realloc : Bool}
    (hc : c = .dequeue now realloc ∨ c = .tryDequeue now realloc) :
    RingOk (call q (.tryDequeue now realloc)).1 ∧
      Does (store q) c (store (call q (.tryDequeue now realloc)).1) (call q (.tryDequeue now realloc)).2 := by
  simp only [call, queueTryDequeue]
  by_cases hempty : q.size = 0
  · rw [if_pos hempty]
    refine ⟨h, .nothing 0 ?_ fun _ => rfl⟩
    rcases hc with rfl | rfl <;> exact Or.inl (ready_eq_nil.mpr hempty)
  rw [if_neg hempty]
  rcases takeHead_spec h hempty now realloc with ⟨hr, e⟩ | ⟨m, q', e, hring, hready, hun, hcap, htag⟩
  · rw [e]
    refine ⟨h, .nothing 0 ?_ fun _ => rfl⟩
    rcases hc with rfl | rfl <;> exact Or.inr hr
  · rw [e]
    have hdeliver := Does.deliver (s := store q) m (ready q') now realloc hc hready
    simp only [store, ← hun, ← hcap, ← htag] at hdeliver ⊢
    exact ⟨hring, hdeliver⟩

/-- On a sound ring every call keeps the ring sound and is a step of the abstract store. -/
theorem queue_does {q : Queue μ} (h : RingOk q) (c : Call μ) :
    RingOk (call q c).1 ∧ Does (store q) c (store (call q c).1) (call q c).2 := by
  cases c with
  | enqueue message =>
    rw [call_enqueue]
    exact enqueue_does h (Or.inl rfl)
  | tryEnqueue message => exact enqueue_does h (Or.inr rfl)
  | dequeue now realloc =>
    rw [call_dequeue]
    exact dequeue_does h (Or.inl rfl)
  | tryDequeue now realloc => exact dequeue_does h (Or.inr rfl)
  | ack tag => exact ack_does h tag
  | reject tag requeue => exact reject_does h tag requeue
  | processTimeouts now timeout => exact timeouts_does h now timeout
  | size => exact ⟨h, .nothing _ trivial fun hc => absurd rfl hc⟩
  | setDurable durable => exact ⟨⟨h.capPos, h.capLt, h.headLt, h.sizeLe, h.tailEq⟩, .nothing 0 trivial fun _ => rfl⟩

end RabbitMQ.Core
