/-
  RabbitMQ.Core.Monitor — the queue with its mutex and its two condition variables, and the
  threads that call it.

  What a call does between taking `queue->mutex` and releasing it, or waiting, is one step
  (`critical`). `queue_enqueue` waits on `not_full`, `queue_dequeue` on `not_empty`; a
  waiter that has been woken runs the section again from the test of its loop. The source
  signals `not_empty` after either enqueue and `not_full` after a dequeue that hands out a
  message, and nowhere else. Which waiters a signal wakes, beyond the one it must, is the
  environment's choice (`wakes`, by thread).
-/

import RabbitMQ.Core.Queue
import RabbitMQ.Lib.CondVar
import RabbitMQ.Lib.Run

namespace RabbitMQ.Core

open Lib
open Lib.CondVar (Cond)

variable {μ : Type}

structure Monitor (μ : Type) where
  q : Queue μ
  /-- Threads in `queue_dequeue`. -/
  notEmpty : Cond Nat
  /-- Threads in `queue_enqueue`, with their message. -/
  notFull : Cond (Nat × μ)

namespace Monitor

/-- The critical section of thread `t`'s call. -/
def critical (t : Nat) (c : Call μ) (wakes : List Nat) (s : Monitor μ) : Monitor μ :=
  match c with
  | .enqueue message =>
    match queueEnqueue s.q message, message with
    | none, some m => { s with notFull := s.notFull.sleep (t, m) }
    | none, none => s
    | some (0, q), _ => { s with q }
    | some (_, q), _ => { s with q, notEmpty := s.notEmpty.signal (wakes.contains ·) }
  | .tryEnqueue message =>
    match queueTryEnqueue s.q message with
    | (0, q) => { s with q }
    | (_, q) => { s with q, notEmpty := s.notEmpty.signal (wakes.contains ·) }
  | .dequeue now realloc =>
    match queueDequeue s.q now realloc with
    | none => { s with notEmpty := s.notEmpty.sleep t }
    | some (none, q) => { s with q }
    | some (some _, q) => { s with q, notFull := s.notFull.signal (wakes.contains ·.1) }
  | .tryDequeue now realloc =>
    match queueTryDequeue s.q now realloc with
    | (none, q) => { s with q }
    | (some _, q) => { s with q, notFull := s.notFull.signal (wakes.contains ·.1) }
  | c => { s with q := (call s.q c).1 }

/-- The thread is inside a call that waits. -/
def Blocked (s : Monitor μ) (t : Nat) : Prop :=
  t ∈ s.notEmpty.asleep ++ s.notEmpty.woken ∨ t ∈ (s.notFull.asleep ++ s.notFull.woken).map (·.1)

instance (s : Monitor μ) (t : Nat) : Decidable (s.Blocked t) :=
  inferInstanceAs (Decidable (_ ∨ _))

end Monitor

inductive MonitorEvent (μ : Type) where
  /-- Thread `t` makes a call. -/
  | call (t : Nat) (c : Call μ) (wakes : List Nat)
  /-- A woken caller of `queue_dequeue` has the mutex again. -/
  | dequeuer (t : Nat) (now : Int) (realloc : Bool) (wakes : List Nat)
  /-- A woken caller of `queue_enqueue` has the mutex again. -/
  | enqueuer (t : Nat) (wakes : List Nat)
  | spurious (wakes : List Nat)
  deriving DecidableEq, Repr

/-- An event that cannot happen leaves the state as it is. -/
def monitorStep (s : Monitor μ) : MonitorEvent μ → Monitor μ
  | .call t c wakes => if s.Blocked t then s else s.critical t c wakes
  | .dequeuer t now realloc wakes =>
    if t ∈ s.notEmpty.woken then
      { s with notEmpty := s.notEmpty.resume (· == t) }.critical t (.dequeue now realloc) wakes
    else s
  | .enqueuer t wakes =>
    match s.notFull.woken.find? (·.1 == t) with
    | none => s
    | some (_, m) => { s with notFull := s.notFull.resume (·.1 == t) }.critical t (.enqueue (some m)) wakes
  | .spurious wakes =>
    { s with notEmpty := s.notEmpty.wake (wakes.contains ·), notFull := s.notFull.wake (wakes.contains ·.1) }

/-- No thread is in a call. -/
def Monitor.start (q : Queue μ) : Monitor μ := ⟨q, ⟨[], []⟩, ⟨[], []⟩⟩

end RabbitMQ.Core
