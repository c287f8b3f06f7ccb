/-
  RabbitMQ.Core.Accesses — the critical sections of `queue.c`, one access to the queue at a
  time.

  A section is the code between `pthread_mutex_lock` and `pthread_mutex_unlock` (or the wait):
  a program whose reads and writes of the queue's fields are those of the source, in its
  order. Local variables are bound; `unacked_count`, which bounds the loops, is read once
  before each, since no loop writes it. A section ends where the source waits or returns, and
  in that case with the condition variable it signals.

  Run alone, each is the operation that `Core.Queue` makes of it in one step
  (`section_eval`).
-/

import RabbitMQ.Core.Queue
import RabbitMQ.Lib.Prog

namespace RabbitMQ.Core

open Lib

variable {μ : Type}

/-- The condition variable of a `pthread_cond_signal`. -/
inductive Signal where
  | notEmpty
  | notFull
  deriving DecidableEq, Repr

inductive SectionEnd (μ : Type) where
  /-- The loop's condition holds: `pthread_cond_wait`. -/
  | waits
  | returns (o : Out μ) (signal : Option Signal)
  deriving DecidableEq, Repr

namespace Stepwise

open Prog (read write)

/-! ## Enqueue -/

def putTail (m : μ) : Prog (Queue μ) Unit := do
  let slot ← read (·.tail)
  write fun q => { q with messages := Function.update q.messages slot.toNat m }
  let tail ← read (·.tail)
  let capacity ← read (·.capacity)
  write fun q => { q with tail := (tail + 1) % capacity }
  let size ← read (·.size)
  write fun q => { q with size := size + 1 }

def enqueue (m : μ) : Prog (Queue μ) (SectionEnd μ) := do
  let size ← read (·.size)
  let capacity ← read (·.capacity)
  if size = capacity then return .waits
  else do
    putTail m
    return .returns { val := 1 } (some .notEmpty)

def tryEnqueue (m : μ) : Prog (Queue μ) (SectionEnd μ) := do
  let size ← read (·.size)
  let capacity ← read (·.capacity)
  if size = capacity then return .returns {} none
  else do
    putTail m
    return .returns { val := 1 } (some .notEmpty)

/-! ## Dequeue -/

/-- `info->message` and the other fields of cell `i`. -/
def setInfo (i : Nat) (f : DeliveryInfo μ → DeliveryInfo μ) : Prog (Queue μ) Unit :=
  write fun q => { q with unackedMessages := Function.update q.unackedMessages i (f (q.unackedMessages i)) }

/-- `add_to_unacked` from the use of the next free cell on. -/
def track (message : μ) (now : Int) : Prog (Queue μ) (Option UInt64) := do
  let count ← read (·.unackedCount)
  write fun q => { q with unackedCount := count + 1 }
  setInfo count fun info => { info with message }
  let next ← read (·.nextDeliveryTag)
  write fun q => { q with nextDeliveryTag := next + 1 }
  setInfo count fun info => { info with deliveryTag := next }
  setInfo count fun info => { info with deliveryTime := now }
  setInfo count fun info => { info with status := .delivered }
  let tag ← read fun q => (q.unackedMessages count).deliveryTag
  return some tag

def addToUnacked (message : μ) (now : Int) (realloc : Bool) : Prog (Queue μ) (Option UInt64) := do
  let count ← read (·.unackedCount)
  let capacity ← read (·.unackedCapacity)
  if capacity ≤ count then do
    let old ← read (·.unackedCapacity)
    if realloc = false then return none
    else do
      write fun q => { q with unackedCapacity := old * 2 }
      track message now
  else track message now

/-- The message back in its slot. -/
def putBack : Prog (Queue μ) Unit := do
  let head ← read (·.head)
  let capacity ← read (·.capacity)
  write fun q => { q with head := (head + capacity - 1) % capacity }
  let size ← read (·.size)
  write fun q => { q with size := size + 1 }

def takeHead (now : Int) (realloc : Bool) : Prog (Queue μ) (SectionEnd μ) := do
  let slot ← read (·.head)
  let message ← read fun q => q.messages slot.toNat
  let head ← read (·.head)
  let capacity ← read (·.capacity)
  write fun q => { q with head := (head + 1) % capacity }
  let size ← read (·.size)
  write fun q => { q with size := size - 1 }
  match ← addToUnacked message now realloc with
  | none => do
    putBack
    return .returns {} none
  | some tag => return .returns { got := some (tag, message) } (some .notFull)

def dequeue (now : Int) (realloc : Bool) : Prog (Queue μ) (SectionEnd μ) := do
  let size ← read (·.size)
  if size = 0 then return .waits else takeHead now realloc

def tryDequeue (now : Int) (realloc : Bool) : Prog (Queue μ) (SectionEnd μ) := do
  let size ← read (·.size)
  if size = 0 then return .returns {} none else takeHead now realloc

/-! ## Settling deliveries -/

def mark (i : Nat) : Prog (Queue μ) Unit := setInfo i fun info => { info with status := .acknowledged }

/-- The loop that finds a tag, over the cells to come. -/
def find (tag : UInt64) : List Nat → Prog (Queue μ) (Option Nat)
  | [] => return none
  | i :: is => do
    let own ← read fun q => (q.unackedMessages i).deliveryTag
    if own = tag then return some i else find tag is

/-- The loop of the clean-up, over the cells to come: `new_count` in the end. -/
def cleanCells : List Nat → Nat → Prog (Queue μ) Nat
  | [], newCount => return newCount
  | i :: is, newCount => do
    let status ← read fun q => (q.unackedMessages i).status
    if status ≠ .acknowledged then
      if i ≠ newCount then do
        let info ← read fun q => q.unackedMessages i
        setInfo newCount fun _ => info
        cleanCells is (newCount + 1)
      else cleanCells is (newCount + 1)
    else cleanCells is newCount

def cleanUp : Prog (Queue μ) Unit := do
  let count ← read (·.unackedCount)
  let newCount ← cleanCells (List.range count) 0
  write fun q => { q with unackedCount := newCount }

/-- Back at the head. -/
def putHead (m : μ) : Prog (Queue μ) Unit := do
  let head ← read (·.head)
  let capacity ← read (·.capacity)
  write fun q => { q with head := (head + capacity - 1) % capacity }
  let slot ← read (·.head)
  write fun q => { q with messages := Function.update q.messages slot.toNat m }
  let size ← read (·.size)
  write fun q => { q with size := size + 1 }

def ack (tag : UInt64) : Prog (Queue μ) (SectionEnd μ) := do
  let count ← read (·.unackedCount)
  match ← find tag (List.range count) with
  | none => return .returns {} none
  | some i => do
    mark i
    let message ← read fun q => (q.unackedMessages i).message
    cleanUp
    return .returns { val := 1, freed := [message] } none

def reject (tag : UInt64) (requeue : Int) : Prog (Queue μ) (SectionEnd μ) := do
  let count ← read (·.unackedCount)
  match ← find tag (List.range count) with
  | none => return .returns {} none
  | some i => do
    let message ← read fun q => (q.unackedMessages i).message
    mark i
    cleanUp
    if requeue = 0 then return .returns { val := 1, freed := [message] } none
    else do
      let size ← read (·.size)
      let capacity ← read (·.capacity)
      if size = capacity then return .returns { val := 1, freed := [message] } none
      else do
        putHead message
        return .returns { val := 1, requeued := [message] } none

/-! ## Timeouts -/

/-- The locals of a pass, and the messages it freed and put back so far. -/
structure PassLocals (μ : Type) where
  requeuedCount : Int32 := 0
  freed : List μ := []
  requeued : List μ := []

def passCells (now timeout : Int) : List Nat → PassLocals μ → Prog (Queue μ) (PassLocals μ)
  | [], l => return l
  | i :: is, l => do
    let status ← read fun q => (q.unackedMessages i).status
    if status = .delivered then do
      let deliveryTime ← read fun q => (q.unackedMessages i).deliveryTime
      if timeout < now - deliveryTime then do
        let message ← read fun q => (q.unackedMessages i).message
        mark i
        let size ← read (·.size)
        let capacity ← read (·.capacity)
        if size < capacity then do
          putHead message
          passCells now timeout is { l with requeuedCount := l.requeuedCount + 1, requeued := l.requeued ++ [message] }
        else passCells now timeout is { l with freed := l.freed ++ [message] }
      else passCells now timeout is l
    else passCells now timeout is l

def processTimeouts (now timeout : Int) : Prog (Queue μ) (SectionEnd μ) := do
  let count ← read (·.unackedCount)
  let l ← passCells now timeout (List.range count) {}
  if 0 < l.requeuedCount then do
    cleanUp
    return .returns { freed := l.freed, requeued := l.requeued } none
  else return .returns { freed := l.freed, requeued := l.requeued } none

/-! ## The rest -/

def size : Prog (Queue μ) (SectionEnd μ) := do
  let size ← read (·.size)
  return .returns { val := size.toNat } none

def setDurable (durable : UInt8) : Prog (Queue μ) (SectionEnd μ) := do
  write fun q => { q with durable := if durable = 0 then 0 else 1 }
  return .returns {} none

end Stepwise

/-- What a call returns at once, without taking the mutex: its argument check fails. -/
def Call.early : Call μ → Option (Out μ)
  | .enqueue none | .tryEnqueue none => some {}
  | .processTimeouts _ timeout => if timeout ≤ 0 then some {} else none
  | _ => none

/-- The section of a call; one that returns early has none. -/
def Call.critical : Call μ → Prog (Queue μ) (SectionEnd μ)
  | .enqueue (some m) => Stepwise.enqueue m
  | .tryEnqueue (some m) => Stepwise.tryEnqueue m
  | .enqueue none | .tryEnqueue none => return .returns {} none
  | .dequeue now realloc => Stepwise.dequeue now realloc
  | .tryDequeue now realloc => Stepwise.tryDequeue now realloc
  | .ack tag => Stepwise.ack tag
  | .reject tag requeue => Stepwise.reject tag requeue
  | .processTimeouts now timeout => Stepwise.processTimeouts now timeout
  | .size => Stepwise.size
  | .setDurable durable => Stepwise.setDurable durable

/-! ## Alone, a section is the operation -/

namespace Stepwise

open Prog

variable (q : Queue μ)

theorem putTail_eval (m : μ) : (putTail m).eval q = ((), Core.pushTail q m) := rfl

theorem putHead_eval (m : μ) : (putHead m).eval q = ((), Core.pushHead q m) := rfl

@[simp] theorem setInfo_eval {β : Type} (i : Nat) (f : DeliveryInfo μ → DeliveryInfo μ) (k : Unit → Prog (Queue μ) β) :
    (setInfo i f >>= k).eval q =
      (k ()).eval { q with unackedMessages := Function.update q.unackedMessages i (f (q.unackedMessages i)) } := rfl

@[simp] theorem mark_eval {β : Type} (i : Nat) (k : Unit → Prog (Queue μ) β) :
    (mark i >>= k).eval q = (k ()).eval (markAcknowledged q i) := rfl

/-- The cell is written field by field. -/
theorem track_eval (message : μ) (now : Int) : (track message now).eval q =
    (some q.nextDeliveryTag,
      { q with unackedMessages := Function.update q.unackedMessages q.unackedCount ⟨message, q.nextDeliveryTag, now, .delivered⟩
               unackedCount := q.unackedCount + 1
               nextDeliveryTag := q.nextDeliveryTag + 1 }) := by
  simp [track]

theorem addToUnacked_eval (message : μ) (now : Int) (realloc : Bool) :
    (addToUnacked message now realloc).eval q = Core.addToUnacked q message now realloc := by
  unfold addToUnacked Core.addToUnacked
  by_cases hfull : q.unackedCapacity ≤ q.unackedCount
  · cases realloc <;> simp [hfull, track_eval]
  · simp [hfull, track_eval]

/-- What a dequeue that got to the head ends with. -/
def handedOut (r : Option (UInt64 × μ)) : SectionEnd μ :=
  match r with
  | none => .returns {} none
  | some got => .returns { got := some got } (some .notFull)

theorem takeHead_eval (now : Int) (realloc : Bool) :
    (takeHead now realloc).eval q = (handedOut (Core.takeHead q now realloc).1, (Core.takeHead q now realloc).2) := by
  unfold takeHead Core.takeHead
  simp only [eval_read, eval_write]
  rw [eval_bind, addToUnacked_eval]
  generalize Core.addToUnacked { q with head := (q.head + 1) % q.capacity, size := q.size - 1 } (q.messages q.head.toNat) now
    realloc = r
  obtain ⟨tag, q'⟩ := r
  cases tag with
  | none => rfl
  | some tag => rfl

/-! ### Loops -/

theorem find_eval (tag : UInt64) (is : List Nat) : (find tag is).eval q =
    (is.find? fun i => (q.unackedMessages i).deliveryTag == tag, q) := by
  induction is with
  | nil => rfl
  | cons i is ih =>
    simp only [find, eval_read, eval_ite, eval_pure, ih, List.find?_cons]
    by_cases htag : (q.unackedMessages i).deliveryTag = tag
    · rw [if_pos htag, beq_iff_eq.mpr htag]
    · rw [if_neg htag, beq_false_of_ne htag]

theorem cleanCells_eval (is : List Nat) (newCount : Nat) : (cleanCells is newCount).eval q =
    ((is.foldl (Segment.compactStep isLive) (q.unackedMessages, newCount)).2,
      { q with unackedMessages := (is.foldl (Segment.compactStep isLive) (q.unackedMessages, newCount)).1 }) := by
  induction is generalizing q newCount with
  | nil => rfl
  | cons i is ih =>
    simp only [cleanCells, eval_read, eval_ite, setInfo_eval, ih, List.foldl_cons, Segment.compactStep, isLive]
    by_cases hdone : (q.unackedMessages i).status = .acknowledged
    · simp [hdone]
    · by_cases hi : i = newCount
      · subst hi
        simp [hdone]
      · simp [hdone, hi]

theorem cleanUp_eval : cleanUp.eval q = ((), Core.cleanUp q) := by
  simp only [cleanUp, eval_read]
  rw [eval_bind, cleanCells_eval]
  rfl

/-- The locals of the loop and the queue are the loop's accumulator. -/
theorem passCells_eval (now timeout : Int) (is : List Nat) (l : PassLocals μ) :
    let p := is.foldl (timeoutStep now timeout) ⟨q, l.requeuedCount, l.freed, l.requeued⟩
    (passCells now timeout is l).eval q = (⟨p.requeuedCount, p.freed, p.requeued⟩, p.q) := by
  induction is generalizing q l with
  | nil => rfl
  | cons i is ih =>
    simp only [passCells, eval_read, eval_ite, mark_eval, eval_bind (putHead _), putHead_eval, ih, List.foldl_cons]
    by_cases hstatus : (q.unackedMessages i).status = .delivered
    · by_cases hold : timeout < now - (q.unackedMessages i).deliveryTime
      · by_cases hroom : q.size < q.capacity
        · simp [timeoutStep, expired, markAcknowledged, hstatus, hold, hroom]
        · simp [timeoutStep, expired, markAcknowledged, hstatus, hold, hroom]
      · simp [timeoutStep, expired, hstatus, hold]
    · simp [timeoutStep, expired, hstatus]

theorem tryEnqueue_eval (m : μ) : (tryEnqueue m).eval q =
    (if q.size = q.capacity then .returns {} none else .returns { val := 1 } (some .notEmpty),
      (queueTryEnqueue q (some m)).2) := by
  simp only [tryEnqueue, eval_read, eval_ite, eval_bind (putTail m), putTail_eval, queueTryEnqueue]
  split
  · rfl
  · rfl

theorem ack_eval (tag : UInt64) : (ack tag).eval q = (.returns (queueAck q tag).2 none, (queueAck q tag).1) := by
  simp only [ack, eval_read, eval_bind (find _ _), find_eval]
  unfold queueAck findTag Segment.first
  cases hi : (List.range q.unackedCount).find? fun i => (q.unackedMessages i).deliveryTag == tag with
  | none => rfl
  | some i =>
    have hmessage : ((markAcknowledged q i).unackedMessages i).message = (q.unackedMessages i).message := by
      simp [markAcknowledged]
    simp only [mark_eval, eval_read, eval_bind cleanUp, cleanUp_eval, eval_pure, hmessage]

theorem reject_eval (tag : UInt64) (requeue : Int) : (reject tag requeue).eval q =
    (.returns (queueReject q tag requeue).2 none, (queueReject q tag requeue).1) := by
  simp only [reject, eval_read, eval_bind (find _ _), find_eval]
  unfold queueReject findTag Segment.first
  cases hi : (List.range q.unackedCount).find? fun i => (q.unackedMessages i).deliveryTag == tag with
  | none => rfl
  | some i =>
    simp only [mark_eval, eval_read, eval_bind cleanUp, cleanUp_eval, eval_ite, eval_bind (putHead _), putHead_eval, eval_pure]
    by_cases hrequeue : requeue = 0
    · simp only [if_pos hrequeue]
    by_cases hfull : (Core.cleanUp (markAcknowledged q i)).size = (Core.cleanUp (markAcknowledged q i)).capacity
    · simp only [if_neg hrequeue, if_pos hfull]
    · simp only [if_neg hrequeue, if_neg hfull]

theorem processTimeouts_eval {now timeout : Int} (ht : ¬ timeout ≤ 0) : (processTimeouts now timeout).eval q =
    (.returns (queueProcessTimeouts q now timeout).2 none, (queueProcessTimeouts q now timeout).1) := by
  simp only [processTimeouts, eval_read, eval_bind (passCells _ _ _ _), passCells_eval, eval_ite, eval_bind cleanUp, cleanUp_eval,
    eval_pure, queueProcessTimeouts, if_neg ht]
  split
  · rfl
  · rfl

end Stepwise

/-- The waits of a call: its loop's condition holds. -/
def Call.Waits (q : Queue μ) : Call μ → Prop
  | .enqueue (some _) => q.size = q.capacity
  | .dequeue _ _ => q.size = 0
  | _ => False

/-- The condition variable a call signals, by what it returns. -/
def signalOf (c : Call μ) (o : Out μ) : Option Signal :=
  match c with
  | .enqueue _ | .tryEnqueue _ => if o.val = 0 then none else some .notEmpty
  | .dequeue _ _ | .tryDequeue _ _ => if o.got.isNone then none else some .notFull
  | _ => none

theorem handedOut_signal {c : Call μ} {r : Option (UInt64 × μ)}
    (hc : ∃ now realloc, c = .dequeue now realloc ∨ c = .tryDequeue now realloc) :
    Stepwise.handedOut r = .returns { got := r } (signalOf c { got := r }) := by
  obtain ⟨now, realloc, rfl | rfl⟩ := hc
  · cases r <;> rfl
  · cases r <;> rfl

theorem section_waits {c : Call μ} {q : Queue μ} (hw : c.Waits q) : c.critical.eval q = (.waits, q) := by
  cases c with
  | enqueue message =>
    cases message with
    | none => cases hw
    | some m =>
      have hfull : q.size = q.capacity := hw
      simp only [Call.critical, Stepwise.enqueue, Prog.eval_read, if_pos hfull, Prog.eval_pure]
  | dequeue now realloc =>
    have hempty : q.size = 0 := hw
    simp only [Call.critical, Stepwise.dequeue, Prog.eval_read, if_pos hempty, Prog.eval_pure]
  | _ => cases hw

/-- Between the lock and the unlock, with nobody else there. -/
theorem section_returns {c : Call μ} {q : Queue μ} (hc : c.early = none) (hw : ¬ c.Waits q) :
    c.critical.eval q = (.returns (call q c).2 (signalOf c (call q c).2), (call q c).1) := by
  cases c with
  | enqueue message =>
    cases message with
    | none => cases hc
    | some m =>
      have hroom : ¬ q.size = q.capacity := hw
      simp only [Call.critical, Stepwise.enqueue, Prog.eval_read, if_neg hroom, Prog.eval_bind (Stepwise.putTail m),
        Stepwise.putTail_eval, call, queueEnqueue]
      rfl
  | tryEnqueue message =>
    cases message with
    | none => cases hc
    | some m =>
      simp only [Call.critical, Stepwise.tryEnqueue_eval, call, queueTryEnqueue]
      by_cases hfull : q.size = q.capacity
      · simp only [if_pos hfull]
        rfl
      · simp only [if_neg hfull]
        rfl
  | dequeue now realloc =>
    have hthere : ¬ q.size = 0 := hw
    simp only [Call.critical, Stepwise.dequeue, Prog.eval_read, if_neg hthere, Stepwise.takeHead_eval, call, queueDequeue,
      handedOut_signal ⟨now, realloc, Or.inl rfl⟩]
  | tryDequeue now realloc =>
    simp only [Call.critical, Stepwise.tryDequeue, Prog.eval_read, Prog.eval_ite, Stepwise.takeHead_eval, call, queueTryDequeue]
    by_cases hempty : q.size = 0
    · simp only [if_pos hempty]
      rfl
    · simp only [if_neg hempty, handedOut_signal ⟨now, realloc, Or.inr rfl⟩]
  | ack tag => exact Stepwise.ack_eval q tag
  | reject tag requeue => exact Stepwise.reject_eval q tag requeue
  | processTimeouts now timeout =>
    have ht : ¬ timeout ≤ 0 := by
      intro ht
      simp [Call.early, ht] at hc
    exact Stepwise.processTimeouts_eval q ht
  | size => rfl
  | setDurable durable => rfl

/-- A call that returns early does nothing and returns what the operation returns. -/
theorem early_call {c : Call μ} {o : Out μ} (hc : c.early = some o) (q : Queue μ) : call q c = (q, o) := by
  cases c with
  | enqueue message =>
    cases message with
    | none => cases hc; rfl
    | some m => cases hc
  | tryEnqueue message =>
    cases message with
    | none => cases hc; rfl
    | some m => cases hc
  | processTimeouts now timeout =>
    by_cases ht : timeout ≤ 0
    · simp only [Call.early, if_pos ht, Option.some.injEq] at hc
      subst hc
      simp only [call, queueProcessTimeouts, if_pos ht]
    · simp only [Call.early, if_neg ht] at hc
      cases hc
  | _ => cases hc

end RabbitMQ.Core
