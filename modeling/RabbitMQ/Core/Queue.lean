/-
  RabbitMQ.Core.Queue — `queue.c`: a bounded ring of ready messages and the array of
  deliveries waiting for an acknowledgment.

  `size_t` and `uint64_t` fields that take part in ring arithmetic or wrap (`capacity`,
  `size`, `head`, `tail`, `next_delivery_tag`) are `UInt64`, `requeued_count` is an
  `Int32`; `unacked_count` and `unacked_capacity` count array elements that are all in
  memory, and are `Nat`. `messages` is the slot array from its base on: `queue_create`
  leaves in it whatever the allocator returned (`garbage`). A message handle is a value of
  any type; a nullable one is an `Option`.

  Each operation is one critical section under `queue->mutex`. Besides the new queue it
  returns its C result and, in `Out`, the `message_free` calls it made and the messages it
  put back at the head, in order. `queue_enqueue` and `queue_dequeue` return `none` where
  the source waits on a condition variable: the section ends there, nothing changed.
-/

import RabbitMQ.Core.Memory
import RabbitMQ.Lib.Circular
import RabbitMQ.Lib.Segment

namespace RabbitMQ.Core

open Lib

def DEFAULT_UNACKED_CAPACITY : Nat := 100

inductive MessageStatus where
  | ready
  | delivered
  | acknowledged
  deriving DecidableEq, Repr

structure DeliveryInfo (μ : Type) where
  message : μ
  deliveryTag : UInt64
  deliveryTime : Int
  status : MessageStatus
  deriving DecidableEq, Repr

structure Queue (μ : Type) where
  name : Option CString
  messages : Nat → μ
  capacity : UInt64
  size : UInt64
  head : UInt64
  tail : UInt64
  durable : UInt8
  unackedMessages : Nat → DeliveryInfo μ
  unackedCapacity : Nat
  unackedCount : Nat
  nextDeliveryTag : UInt64

variable {μ : Type}

/-- What a call did besides changing the queue: its C result, the message and tag a
    dequeue handed out, the messages it freed, the messages it put back at the head. -/
structure Out (μ : Type) where
  val : Nat := 0
  got : Option (UInt64 × μ) := none
  freed : List μ := []
  requeued : List μ := []
  deriving DecidableEq, Repr

def isLive (info : DeliveryInfo μ) : Bool := info.status != .acknowledged

/-! ## Create and free -/

/-- The results of `pthread_mutex_init` and of the two `pthread_cond_init`. -/
structure SyncInit where
  mutex : Bool
  notEmpty : Bool
  notFull : Bool

/-- Requests, in order: the struct, its name, the slot array, the delivery array. A
    `strdup` that fails leaves the name NULL. `sizeof` is that of a 64-bit build. -/
def queueCreate (name : Option CString) (capacity : UInt64) (garbage : Nat → μ)
    (garbageInfo : Nat → DeliveryInfo μ) (sync : SyncInit) (h : Heap) : Option (Queue μ) × Heap :=
  match name with
  | none => (none, h)
  | some name =>
    if capacity = 0 then (none, h) else
    match malloc h 224 with
    | (none, h) => (none, h)
    | (some queue, h) =>
    let (dup, h) := strdup h name
    match malloc h (capacity * 8).toNat with
    | (none, h) => (none, (h.frees dup.toList).free queue)
    | (some messages, h) =>
    match malloc h (DEFAULT_UNACKED_CAPACITY * 32) with
    | (none, h) => (none, ((h.free messages).frees dup.toList).free queue)
    | (some unacked, h) =>
    if !sync.mutex || !sync.notEmpty || !sync.notFull then
      (none, (((h.free unacked).free messages).frees dup.toList).free queue)
    else
      (some { name := dup.map fun _ => name, messages := garbage, capacity, size := 0, head := 0, tail := 0,
              durable := 0, unackedMessages := garbageInfo, unackedCapacity := DEFAULT_UNACKED_CAPACITY,
              unackedCount := 0, nextDeliveryTag := 1 }, h)

/-- The messages `queue_free` frees: the ring's, then those of the unsettled entries. -/
def queueFree (q : Queue μ) : List μ :=
  ((List.range q.size.toNat).map fun i => q.messages ((q.head + UInt64.ofNat i) % q.capacity).toNat) ++
    (((List.range q.unackedCount).map q.unackedMessages).filter isLive).map (·.message)

/-! ## Enqueue -/

/-- The slot write both enqueues share. -/
def pushTail (q : Queue μ) (m : μ) : Queue μ :=
  { q with messages := Function.update q.messages q.tail.toNat m
           tail := (q.tail + 1) % q.capacity
           size := q.size + 1 }

def queueEnqueue (q : Queue μ) (message : Option μ) : Option (Nat × Queue μ) :=
  match message with
  | none => some (0, q)
  | some m => if q.size = q.capacity then none else some (1, pushTail q m)

def queueTryEnqueue (q : Queue μ) (message : Option μ) : Nat × Queue μ :=
  match message with
  | none => (0, q)
  | some m => if q.size = q.capacity then (0, q) else (1, pushTail q m)

/-! ## Dequeue -/

/-- The tag given, or none when the array is full and `realloc` failed; `now` is `time(NULL)`. -/
def addToUnacked (q : Queue μ) (message : μ) (now : Int) (realloc : Bool) : Option UInt64 × Queue μ :=
  if q.unackedCapacity ≤ q.unackedCount ∧ realloc = false then (none, q)
  else
    let q := if q.unackedCapacity ≤ q.unackedCount then { q with unackedCapacity := q.unackedCapacity * 2 } else q
    (some q.nextDeliveryTag,
      { q with unackedMessages := Function.update q.unackedMessages q.unackedCount
                 ⟨message, q.nextDeliveryTag, now, .delivered⟩
               unackedCount := q.unackedCount + 1
               nextDeliveryTag := q.nextDeliveryTag + 1 })

/-- What both dequeues do once a message is there. -/
def takeHead (q : Queue μ) (now : Int) (realloc : Bool) : Option (UInt64 × μ) × Queue μ :=
  let message := q.messages q.head.toNat
  let q := { q with head := (q.head + 1) % q.capacity, size := q.size - 1 }
  match addToUnacked q message now realloc with
  | (some tag, q) => (some (tag, message), q)
  | (none, q) => (none, { q with head := (q.head + q.capacity - 1) % q.capacity, size := q.size + 1 })

def queueDequeue (q : Queue μ) (now : Int) (realloc : Bool) : Option (Option (UInt64 × μ) × Queue μ) :=
  if q.size = 0 then none else some (takeHead q now realloc)

def queueTryDequeue (q : Queue μ) (now : Int) (realloc : Bool) : Option (UInt64 × μ) × Queue μ :=
  if q.size = 0 then (none, q) else takeHead q now realloc

/-! ## Settling deliveries -/

/-- The loop that finds a delivery tag: it looks at the tag only. -/
def findTag (q : Queue μ) (tag : UInt64) : Option Nat :=
  Segment.first (·.deliveryTag == tag) q.unackedMessages q.unackedCount

def markAcknowledged (q : Queue μ) (i : Nat) : Queue μ :=
  { q with unackedMessages := Function.update q.unackedMessages i
             { q.unackedMessages i with status := .acknowledged } }

/-- The clean-up loop of `queue_ack`, `queue_reject` and `queue_process_timeouts`. -/
def cleanUp (q : Queue μ) : Queue μ :=
  let r := Segment.compact isLive q.unackedMessages q.unackedCount
  { q with unackedMessages := r.1, unackedCount := r.2 }

/-- Back into the slot before the head. -/
def pushHead (q : Queue μ) (m : μ) : Queue μ :=
  let head := (q.head + q.capacity - 1) % q.capacity
  { q with head := head, messages := Function.update q.messages head.toNat m, size := q.size + 1 }

def queueAck (q : Queue μ) (tag : UInt64) : Queue μ × Out μ :=
  match findTag q tag with
  | none => (q, {})
  | some i => (cleanUp (markAcknowledged q i), { val := 1, freed := [(q.unackedMessages i).message] })

def queueReject (q : Queue μ) (tag : UInt64) (requeue : Int) : Queue μ × Out μ :=
  match findTag q tag with
  | none => (q, {})
  | some i =>
    let message := (q.unackedMessages i).message
    let q := cleanUp (markAcknowledged q i)
    if requeue = 0 then (q, { val := 1, freed := [message] })
    else if q.size = q.capacity then (q, { val := 1, freed := [message] })
    else (pushHead q message, { val := 1, requeued := [message] })

/-! ## Timeouts -/

structure Pass (μ : Type) where
  q : Queue μ
  requeuedCount : Int32
  freed : List μ
  requeued : List μ

/-- Whether the pass at `now` takes an entry back. -/
def expired (now timeout : Int) (info : DeliveryInfo μ) : Bool :=
  info.status == .delivered && decide (timeout < now - info.deliveryTime)

/-- One turn of the pass, at cell `i`. -/
def timeoutStep (now timeout : Int) (p : Pass μ) (i : Nat) : Pass μ :=
  if expired now timeout (p.q.unackedMessages i) then
    let message := (p.q.unackedMessages i).message
    let q := markAcknowledged p.q i
    if q.size < q.capacity then
      { q := pushHead q message, requeuedCount := p.requeuedCount + 1, freed := p.freed,
        requeued := p.requeued ++ [message] }
    else { p with q := q, freed := p.freed ++ [message] }
  else p

def queueProcessTimeouts (q : Queue μ) (now timeout : Int) : Queue μ × Out μ :=
  if timeout ≤ 0 then (q, {})
  else
    let p := (List.range q.unackedCount).foldl (timeoutStep now timeout) ⟨q, 0, [], []⟩
    (if 0 < p.requeuedCount then cleanUp p.q else p.q, { freed := p.freed, requeued := p.requeued })

/-! ## The rest -/

def queueSize (q : Queue μ) : UInt64 := q.size

def queueSetDurable (q : Queue μ) (durable : UInt8) : Queue μ := { q with durable := if durable = 0 then 0 else 1 }

/-! ## Calls -/

inductive Call (μ : Type) where
  | enqueue (message : Option μ)
  | tryEnqueue (message : Option μ)
  | dequeue (now : Int) (realloc : Bool)
  | tryDequeue (now : Int) (realloc : Bool)
  | ack (tag : UInt64)
  | reject (tag : UInt64) (requeue : Int)
  | processTimeouts (now timeout : Int)
  | size
  | setDurable (durable : UInt8)
  deriving DecidableEq, Repr

/-- One critical section of a call; one that waits does nothing. -/
def call (q : Queue μ) : Call μ → Queue μ × Out μ
  | .enqueue message =>
    match queueEnqueue q message with
    | none => (q, {})
    | some (val, q) => (q, { val := val })
  | .tryEnqueue message => let r := queueTryEnqueue q message; (r.2, { val := r.1 })
  | .dequeue now realloc =>
    match queueDequeue q now realloc with
    | none => (q, {})
    | some (got, q) => (q, { got := got })
  | .tryDequeue now realloc => let r := queueTryDequeue q now realloc; (r.2, { got := r.1 })
  | .ack tag => queueAck q tag
  | .reject tag requeue => queueReject q tag requeue
  | .processTimeouts now timeout => queueProcessTimeouts q now timeout
  | .size => (q, { val := (queueSize q).toNat })
  | .setDurable durable => (queueSetDurable q durable, {})

end RabbitMQ.Core
