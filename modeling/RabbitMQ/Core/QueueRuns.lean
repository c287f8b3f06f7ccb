/-
  RabbitMQ.Core.QueueRuns — runs of the queue operations, from `queue_create` on.

  A history is a queue with what the run has done so far: the deque operations on its ring
  (an accepted enqueue, a message handed out, a message put back), the messages that were
  the subject of a successful ack or of a successful reject without requeue, the messages
  freed in order, and the delivery tags outstanding (handed out, and since then neither
  acked nor rejected nor expired in a timeout pass).

  Along any run, what every step of the abstract store keeps holds of the queue's lists and
  of the history (`hist_inv`). The ring is a bounded deque in every run
  (`ring_is_a_bounded_deque`).
-/

import RabbitMQ.Core.QueueSpec
import RabbitMQ.Lib.Deque
import RabbitMQ.Lib.Run

namespace RabbitMQ.Core

open Lib

variable {μ : Type}

/-! ## Histories -/

structure Ghost (μ : Type) where
  ops : List (Deque.Op μ)
  settled : List μ
  freed : List μ
  outstanding : List UInt64

namespace Ghost

def accepted (g : Ghost μ) : List μ := Deque.pushed g.ops

def dequeued (g : Ghost μ) : List μ := Deque.popped g.ops

def requeued (g : Ghost μ) : List μ := Deque.returned g.ops

end Ghost

/-- What a call did to the ring, as deque operations. -/
def opsOf (c : Call μ) (o : Out μ) : List (Deque.Op μ) :=
  match c with
  | .enqueue (some m) | .tryEnqueue (some m) => if o.val = 1 then [.pushBack m] else []
  | .dequeue _ _ | .tryDequeue _ _ => o.got.toList.map fun r => .popFront r.2
  | .reject _ _ | .processTimeouts _ _ => o.requeued.map .pushFront
  | _ => []

/-- The message an ack, or a reject without requeue, is about. -/
def subject (s : Store μ) : Call μ → List μ
  | .ack tag => ((s.unacked.find? (·.deliveryTag == tag)).map (·.message)).toList
  | .reject tag requeue =>
    if requeue = 0 then ((s.unacked.find? (·.deliveryTag == tag)).map (·.message)).toList else []
  | _ => []

def tags (l : List (DeliveryInfo μ)) : List UInt64 := l.map (·.deliveryTag)

def outstandingAfter (s : Store μ) (c : Call μ) (o : Out μ) (out : List UInt64) : List UInt64 :=
  match c with
  | .dequeue _ _ | .tryDequeue _ _ => out ++ (o.got.toList.map (·.1))
  | .ack tag | .reject tag _ => if o.val = 1 then out.filter (· ≠ tag) else out
  | .processTimeouts now timeout =>
    if 0 < timeout then out.filter (· ∉ tags (s.unacked.filter (expired now timeout))) else out
  | _ => out

def Ghost.after (g : Ghost μ) (s : Store μ) (c : Call μ) (o : Out μ) : Ghost μ where
  ops := g.ops ++ opsOf c o
  settled := g.settled ++ if o.val = 1 then subject s c else []
  freed := g.freed ++ o.freed
  outstanding := outstandingAfter s c o g.outstanding

structure Hist (μ : Type) where
  q : Queue μ
  g : Ghost μ

namespace Hist

def start (q : Queue μ) : Hist μ := ⟨q, ⟨[], [], [], []⟩⟩

def step (h : Hist μ) (c : Call μ) : Hist μ :=
  let r := call h.q c
  ⟨r.1, h.g.after (store h.q) c r.2⟩

def run (q : Queue μ) (calls : List (Call μ)) : Hist μ := Run.run step (start q) calls

/-- Every call of the run meets `ok` in the store it is made on. -/
def Along (ok : Store μ → Call μ → Prop) (q : Queue μ) (calls : List (Call μ)) : Prop :=
  Run.Along step (fun h c => ok (store h.q) c) (start q) calls

instance (ok : Store μ → Call μ → Prop) [∀ s c, Decidable (ok s c)] (q : Queue μ) (calls : List (Call μ)) :
    Decidable (Along ok q calls) :=
  inferInstanceAs (Decidable (Run.Along step (fun h c => ok (store h.q) c) (start q) calls))

end Hist

/-- An empty queue, from which nothing was delivered. -/
structure Created (q : Queue μ) (capacity : UInt64) : Prop where
  positive : 0 < capacity.toNat
  capacity : q.capacity = capacity
  size : q.size = 0
  head : q.head = 0
  tail : q.tail = 0
  unackedCount : q.unackedCount = 0
  unackedCapacity : q.unackedCapacity = DEFAULT_UNACKED_CAPACITY
  nextDeliveryTag : q.nextDeliveryTag = 1

theorem created {name : Option CString} {capacity : UInt64} {garbage : Nat → μ} {info : Nat → DeliveryInfo μ}
    {sync : SyncInit} {h : Heap} {q : Queue μ} (hq : (queueCreate name capacity garbage info sync h).1 = some q) :
    Created q capacity := by
  unfold queueCreate at hq
  split at hq
  · cases hq
  · split at hq
    · cases hq
    · rename_i hc
      have hpos : 0 < capacity.toNat := by
        have : capacity.toNat ≠ 0 := fun e => hc (UInt64.toNat_inj.mp e)
        omega
      repeat' split at hq
      all_goals simp only [reduceCtorEq, Option.some.injEq] at hq
      subst hq
      exact ⟨hpos, rfl, rfl, rfl, rfl, rfl, rfl, rfl⟩

/-- Of any capacity. -/
theorem created_slots {name : Option CString} {capacity : UInt64} {garbage : Nat → μ} {info : Nat → DeliveryInfo μ}
    {sync : SyncInit} {h : Heap} {q : Queue μ} (hq : (queueCreate name capacity garbage info sync h).1 = some q) :
    SlotsOk q := by
  have hc := created hq
  have hs : (0 : UInt64).toNat = 0 := rfl
  refine ⟨?_, ?_, ?_, ?_⟩
  · rw [hc.capacity]; exact hc.positive
  · rw [hc.capacity, hc.head]; exact hc.positive
  · rw [hc.size]; exact Nat.zero_le _
  · rw [hc.size, hc.head, hc.tail, hs, Nat.zero_mod]

/-- What `queue_create` returns is sound and empty, for a capacity whose slots fit in memory. -/
theorem created_ok {name : Option CString} {capacity : UInt64} {garbage : Nat → μ} {info : Nat → DeliveryInfo μ}
    {sync : SyncInit} {h : Heap} {q : Queue μ} (hq : (queueCreate name capacity garbage info sync h).1 = some q)
    (hcap : capacity.toNat < 2 ^ 61) : RingOk q ∧ store q = ⟨capacity.toNat, [], [], 1⟩ := by
  have hc := created hq
  have hslots := created_slots hq
  have hs : (0 : UInt64).toNat = 0 := rfl
  refine ⟨⟨hslots.capPos, ?_, hslots.headLt, hslots.sizeLe, hslots.tailEq⟩, ?_⟩
  · rw [hc.capacity]; exact hcap
  · simp only [store, ready, unacked, hc.capacity, hc.size, hc.unackedCount, hc.nextDeliveryTag, hs, Circular.window_zero,
      Segment.seg_zero]

/-! ## Invariants of runs -/

section Rule

variable {P : Store μ → Ghost μ → Prop} {ok : Store μ → Call μ → Prop}

/-- What every step of the abstract store keeps holds along a run of the queue. -/
theorem hist_inv (hstep : ∀ s g c s' o, P s g → ok s c → Does s c s' o → P s' (g.after s c o)) {q : Queue μ}
    (hq : RingOk q) (h0 : P (store q) (Hist.start q).g) {calls : List (Call μ)} (h : Hist.Along ok q calls) :
    RingOk (Hist.run q calls).q ∧ P (store (Hist.run q calls).q) (Hist.run q calls).g := by
  have hkeep : ∀ (h : Hist μ) (c : Call μ), RingOk h.q ∧ P (store h.q) h.g → ok (store h.q) c →
      RingOk (h.step c).q ∧ P (store (h.step c).q) (h.step c).g := by
    intro h c ⟨hr, hp⟩ hok
    obtain ⟨hr', hd⟩ := queue_does hr c
    exact ⟨hr', hstep _ _ _ _ _ hp hok hd⟩
  have h0' : RingOk (Hist.start q).q ∧ P (store (Hist.start q).q) (Hist.start q).g := ⟨hq, h0⟩
  exact Run.along_inv hkeep h0' h

end Rule

theorem along_true (q : Queue μ) (calls : List (Call μ)) : Hist.Along (fun _ _ => True) q calls := by
  unfold Hist.Along
  generalize Hist.start q = h
  induction calls generalizing h with
  | nil => trivial
  | cons c calls ih => exact ⟨trivial, ih _⟩

/-! ## The ring is a bounded deque -/

theorem does_steps {s s' : Store μ} {c : Call μ} {o : Out μ} (h : Does s c s' o) (hb : s.ready.length ≤ s.capacity) :
    s'.capacity = s.capacity ∧ Deque.Steps s.capacity s.ready (opsOf c o) s'.ready := by
  cases h with
  | nothing val hi hv =>
    refine ⟨rfl, ?_⟩
    have hops : opsOf c ({ val := val } : Out μ) = [] := by
      unfold opsOf
      split
      · simp [hv (by simp)]
      · simp [hv (by simp)]
      all_goals rfl
    rw [hops]
    exact .nil _
  | push m hc hlt =>
    refine ⟨rfl, ?_⟩
    rcases hc with rfl | rfl <;> exact .pushBack hlt (.nil _)
  | deliver m rest now realloc hc hr =>
    refine ⟨rfl, ?_⟩
    rw [hr]
    rcases hc with rfl | rfl <;> exact .popFront (.nil _)
  | ack => exact ⟨rfl, .nil _⟩
  | discard => exact ⟨rfl, .nil _⟩
  | requeue pre e post hf h0 hlt => exact ⟨rfl, .pushFront hlt (.nil _)⟩
  | overflow => exact ⟨rfl, .nil _⟩
  | pass d room ht hd hroom =>
    refine ⟨rfl, Deque.steps_pushFronts _ _ ?_⟩
    rw [List.length_take]
    omega

/-- The deque operations of a run lead from the empty ring to the ring it is in. -/
def IsDeque (cap : Nat) (s : Store μ) (g : Ghost μ) : Prop :=
  s.capacity = cap ∧ s.ready.length ≤ cap ∧ Deque.Steps cap [] g.ops s.ready

theorem isDeque_step {cap : Nat} {s s' : Store μ} {g : Ghost μ} {c : Call μ} {o : Out μ} (hp : IsDeque cap s g)
    (h : Does s c s' o) : IsDeque cap s' (g.after s c o) := by
  obtain ⟨rfl, hb, hops⟩ := hp
  obtain ⟨hcap, hs⟩ := does_steps h hb
  exact ⟨hcap, Deque.steps_bounded hs hb, Deque.steps_append hops hs⟩

/-- The ring indices are sound, every further call is a run of deque operations on the
    ready list, and without requeues what was handed out is a prefix of what was accepted. -/
def BoundedDeque (capacity : UInt64) (h : Hist μ) : Prop :=
  h.q.capacity = capacity ∧
  (h.q.head < capacity ∧ h.q.tail < capacity ∧ h.q.size ≤ capacity ∧
    h.q.tail.toNat = (h.q.head.toNat + h.q.size.toNat) % capacity.toNat) ∧
  (∀ c, Deque.Steps capacity.toNat (ready h.q) (opsOf c (call h.q c).2) (ready (call h.q c).1)) ∧
  (h.g.requeued = [] → h.g.dequeued <+: h.g.accepted)

theorem ring_is_a_bounded_deque {name : Option CString} {capacity : UInt64} {garbage : Nat → μ}
    {info : Nat → DeliveryInfo μ} {sync : SyncInit} {h : Heap} {q : Queue μ}
    (hq : (queueCreate name capacity garbage info sync h).1 = some q) (hcap : capacity.toNat < 2 ^ 61)
    (calls : List (Call μ)) : BoundedDeque capacity (Hist.run q calls) := by
  obtain ⟨hring, hstore⟩ := created_ok hq hcap
  have h0 : IsDeque capacity.toNat (store q) (Hist.start q).g := by
    rw [hstore]
    exact ⟨rfl, Nat.zero_le _, .nil _⟩
  obtain ⟨hr, hc, hb, hops⟩ :=
    hist_inv (fun s g c s' o hp _ hd => isDeque_step hp hd) hring h0 (along_true q calls)
  have hcapacity : (Hist.run q calls).q.capacity = capacity := UInt64.toNat_inj.mp hc
  refine ⟨hcapacity, ⟨?_, ?_, ?_, ?_⟩, ?_, fun hn => Deque.popped_prefix hops hn⟩
  · rw [← hcapacity]; exact UInt64.lt_iff_toNat_lt.mpr hr.headLt
  · rw [← hcapacity]; exact UInt64.lt_iff_toNat_lt.mpr hr.slots.tailLt
  · rw [← hcapacity]; exact UInt64.le_iff_toNat_le.mpr hr.sizeLe
  · rw [← hcapacity]; exact hr.tailEq
  · intro c
    have hs := (does_steps (queue_does hr c).2 (by rw [hc]; exact hb)).2
    rw [hc] at hs
    exact hs

/-- A queue of one slot, created with every request granted. -/
def oneSlot : Option (Queue Nat) :=
  (queueCreate (some ⟨[113], by decide⟩) 1 (fun _ => 0) (fun _ => ⟨0, 0, 0, .ready⟩) ⟨true, true, true⟩
    ⟨1, fun _ => false, [], []⟩).1

/-- Around the one slot: in, out, back at the head, out again. -/
theorem ring_is_a_bounded_deque_around : ∃ q, oneSlot = some q ∧
    BoundedDeque 1 (Hist.run q [.enqueue (some 7), .tryDequeue 0 true, .reject 1 1, .dequeue 0 true, .enqueue (some 8)]) :=
  ⟨_, rfl, ring_is_a_bounded_deque (show oneSlot = some _ from rfl) (by decide) _⟩

end RabbitMQ.Core
