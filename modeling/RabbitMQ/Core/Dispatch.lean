/-
  RabbitMQ.Core.Dispatch — handler threads that publish at the same time.

  `broker_publish` clones its message before it takes `broker->mutex`; `broker_route_message`
  holds it from the look at the first binding to the end. A thread goes through both step by
  step: a binding looked at, a clone, a `queue_try_enqueue`, an entry of the consumers table,
  a `send`. The threads take their steps in any order. `broker_event_loop` makes its pass
  under the same mutex. (`broker_get_exchange`, which a handler calls first, writes nothing.)

  The record `log` has the copies in the order they were enqueued; the rings have them in
  that order (`logged_is_enqueued`). A copy is sent by the thread that enqueued it before it
  gives the mutex back, and no other thread sends meanwhile. So the stream of a consumer is
  the frames of the copies put in its queues, in the order of the log (`streams_are_whole`).
  What a step can do is said once (`threadStep_moves`); both invariants come from that.
  A thread that is alone does what `brokerPublish` does (`publish_alone`).
-/

import RabbitMQ.Core.Pushes
import RabbitMQ.Lib.Lock

namespace RabbitMQ.Core

open Lib

/-! ## The threads -/

/-- The locals of `broker_route_message`; `left` are the bindings to come. -/
structure Route where
  exchange : Nat
  message : Message
  left : List Binding
  routed : Nat

/-- The locals of `forward_message_to_consumers`; `next` is its loop variable. -/
structure Forward where
  queueName : CString
  clone : Message
  next : Nat

inductive Place where
  | idle
  /-- About to take `broker->mutex`. -/
  | entering (exchange : Nat) (message : Message)
  | routing (r : Route)
  /-- About to call `queue_try_enqueue`. -/
  | storing (r : Route) (b : Binding) (clone : Message)
  | forwarding (r : Route) (f : Forward)
  /-- In `send_message_data`, with the buffers to come. -/
  | sending (r : Route) (f : Forward) (fd : Int) (left : List Bytes)
  /-- Back in `broker_publish`. -/
  | returning (message : Message) (routed : Nat)
  /-- At a NULL string that `strcmp` or `strlen` does not return from. -/
  | stuck

/-- Between taking `broker->mutex` and giving it back. -/
def Inside : Place → Prop
  | .routing _ | .storing _ _ _ | .forwarding _ _ | .sending _ _ _ _ | .stuck => True
  | .idle | .entering _ _ | .returning _ _ => False

structure Dispatch where
  node : Node
  holder : Option Nat
  threads : Nat → Place
  log : List (Nat × Message)

namespace Dispatch

def server (d : Dispatch) : Server := d.node.server

/-- Thread `t` goes to `p`, leaving the server as `s`. -/
def go (d : Dispatch) (t : Nat) (s : Server) (p : Place) : Dispatch :=
  { d with node := { d.node with server := s }, threads := Function.update d.threads t p }

end Dispatch

/-- After a successful `queue_try_enqueue` into `q`. -/
def afterStore (r : Route) (q : Queue Message) (clone : Message) : Place :=
  match q.name with
  | none => .routing { r with routed := r.routed + 1 }
  | some queueName => .forwarding { r with routed := r.routed + 1 } ⟨queueName, clone, 0⟩

/-- The next step of thread `t`. -/
def threadStep (d : Dispatch) (t : Nat) : Dispatch :=
  let s := d.server
  match d.threads t with
  | .idle => d
  | .entering exchange message =>
    if d.holder = none then { d.go t s (.routing ⟨exchange, message, s.broker.bindings, 0⟩) with holder := some t } else d
  | .routing r =>
    match r.left with
    | [] => { d.go t (afterRouting r.message s r.routed) (.returning r.message r.routed) with holder := none }
    | b :: bs =>
      match bindingMatches s r.exchange r.message.routingKey b with
      | none => d.go t s .stuck
      | some false => d.go t s (.routing { r with left := bs })
      | some true =>
        match messageClone r.message s.heap with
        | (none, heap) => d.go t { s with heap } (.routing { r with left := bs })
        | (some clone, heap) => d.go t { s with heap } (.storing { r with left := bs } b clone)
  | .storing r b clone =>
    let e := queueTryEnqueue (s.queues b.queue) (some clone)
    let s := { s with queues := Function.update s.queues b.queue e.2 }
    if e.1 ≠ 0 then { d.go t s (afterStore r e.2 clone) with log := d.log ++ [(b.queue, clone)] }
    else d.go t { s with heap := messageFree clone s.heap } (.routing r)
  | .forwarding r f =>
    match s.consumers[f.next]? with
    | none => d.go t s (.routing r)
    | some c =>
      let f := { f with next := f.next + 1 }
      if c.queueName = f.queueName ∧ Live (s.clients c.clientIndex) then
        let fd := (s.clients c.clientIndex).fd
        if fd < 0 then d.go t s (.forwarding r f)
        else
          match sends f.clone.toFields with
          | none => d.go t s .stuck
          | some bufs => d.go t s (.sending r f fd bufs)
      else d.go t s (.forwarding r f)
  | .sending r f _ [] => d.go t s (.forwarding r f)
  | .sending r f fd (buf :: left) =>
    let w := send buf (s.outlets fd)
    let s := { s with outlets := Function.update s.outlets fd w.2 }
    if w.1 = some buf.length then d.go t s (.sending r f fd left) else d.go t s (.forwarding r f)
  | .returning message routed =>
    d.go t (if routed = 0 then { s with heap := messageFree message s.heap } else s) .idle
  | .stuck => d

/-- Thread `t`, in its loop, calls `broker_publish`. -/
def publishBegins (d : Dispatch) (t exchange : Nat) (message : Message) : Dispatch :=
  match d.threads t with
  | .idle =>
    match messageClone message d.server.heap with
    | (none, heap) => d.go t { d.server with heap } .idle
    | (some msgClone, heap) => d.go t { d.server with heap } (.entering exchange msgClone)
  | _ => d

inductive DispatchEvent where
  | publish (t exchange : Nat) (message : Message)
  | step (t : Nat)
  /-- The event loop's pass; it waits while the mutex is taken. -/
  | timeouts (now : Int)

def dispatchStep (d : Dispatch) : DispatchEvent → Dispatch
  | .publish t exchange message => publishBegins d t exchange message
  | .step t => threadStep d t
  | .timeouts now => if d.holder = none then { d with node := processTimeouts now d.node } else d

/-- The handlers of a broker that runs, no message under way. -/
def Node.dispatching (n : Node) : Dispatch := ⟨n, none, fun _ => .idle, []⟩

/-! ## What a consumer is to get -/

/-- What `send_message_data` writes of a message. -/
def frameOf (m : Fields) : Bytes := ((sends m).getD []).flatten

/-- Client `i` is connected, to a descriptor of its own, and registered at most once for
    each name. -/
structure RegisteredOnce (s : Server) (i : Nat) : Prop where
  live : Live (s.clients i)
  fd : 0 ≤ (s.clients i).fd
  own : ∀ j, Live (s.clients j) → (s.clients j).fd = (s.clients i).fd → j = i
  once : ∀ name, s.consumers.count ⟨i, name⟩ ≤ 1

/-- Queue `q` goes by a name client `i` is registered for. -/
def Subscribed (s : Server) (i q : Nat) : Prop := ∃ name, (s.queues q).name = some name ∧ ⟨i, name⟩ ∈ s.consumers

instance (s : Server) (i q : Nat) : Decidable (Subscribed s i q) :=
  match h : (s.queues q).name with
  | none => isFalse fun ⟨name, hname, _⟩ => by rw [h] at hname; cases hname
  | some name =>
    if hm : ⟨i, name⟩ ∈ s.consumers then isTrue ⟨name, h, hm⟩
    else isFalse fun ⟨name', hname, hmem⟩ => hm (by rw [h] at hname; cases hname; exact hmem)

/-- The copies enqueued into the queues of client `i`, in order. -/
def copiesFor (s : Server) (i : Nat) (log : List (Nat × Message)) : List Message :=
  (log.filter fun c => Subscribed s i c.1).map (·.2)

/-- What of the current copy is still to be sent to client `i`, by a thread at a place. -/
def toCome (s : Server) (i : Nat) (f : Forward) : Bytes :=
  (List.replicate ((s.consumers.drop f.next).count ⟨i, f.queueName⟩) (frameOf f.clone.toFields)).flatten

def owed (s : Server) (i : Nat) : Place → Bytes
  | .forwarding _ f => toCome s i f
  | .sending _ f fd left => (if fd = (s.clients i).fd then left.flatten else []) ++ toCome s i f
  | .idle | .entering _ _ | .routing _ | .storing _ _ _ | .returning _ _ | .stuck => []

/-- A copy being forwarded is the last of the log. -/
def Forwards (s : Server) (log : List (Nat × Message)) (f : Forward) : Prop :=
  ∃ cs q, log = cs ++ [(q, f.clone)] ∧ (s.queues q).name = some f.queueName

def AtLast (s : Server) (i : Nat) (log : List (Nat × Message)) : Place → Prop
  | .forwarding _ f => Forwards s log f
  | .sending _ f fd left =>
    Forwards s log f ∧ left.flatten <:+ frameOf f.clone.toFields ∧
      (fd = (s.clients i).fd → ⟨i, f.queueName⟩ ∈ s.consumers.take f.next)
  | .idle | .entering _ _ | .routing _ | .storing _ _ _ | .returning _ _ | .stuck => True

/-! ## One step -/

/-- Inside, with no copy being forwarded. -/
def BetweenCopies : Place → Prop
  | .routing _ | .storing _ _ _ | .stuck => True
  | .idle | .entering _ _ | .forwarding _ _ | .sending _ _ _ _ | .returning _ _ => False

/-- What a step of thread `t` can do. -/
inductive Moves (d : Dispatch) (t : Nat) : Dispatch → Prop
  | rests : Moves d t d
  | outside (heap : Heap) (p : Place) (ht : ¬ Inside (d.threads t)) (hp : ¬ Inside p) :
      Moves d t (d.go t { d.server with heap } p)
  | enters (r : Route) (hfree : d.holder = none) : Moves d t { d.go t d.server (.routing r) with holder := some t }
  | leaves (heap : Heap) (p : Place) (ht : BetweenCopies (d.threads t)) (hp : ¬ Inside p) :
      Moves d t { d.go t { d.server with heap } p with holder := none }
  | between (heap : Heap) (p : Place) (ht : BetweenCopies (d.threads t)) (hp : BetweenCopies p) :
      Moves d t (d.go t { d.server with heap } p)
  | stores (r : Route) (b : Binding) (clone : Message) (ht : d.threads t = .storing r b clone)
      (hroom : (d.server.queues b.queue).size ≠ (d.server.queues b.queue).capacity) :
      Moves d t { d.go t
          { d.server with queues := Function.update d.server.queues b.queue (pushTail (d.server.queues b.queue) clone) }
          (afterStore r (pushTail (d.server.queues b.queue) clone) clone)
        with log := d.log ++ [(b.queue, clone)] }
  /-- There are no more entries. -/
  | passes (r : Route) (f : Forward) (ht : d.threads t = .forwarding r f) (hend : d.server.consumers[f.next]? = none) :
      Moves d t (d.go t d.server (.routing r))
  | skips (r : Route) (f : Forward) (c : ConsumerInfo) (ht : d.threads t = .forwarding r f)
      (hc : d.server.consumers[f.next]? = some c)
      (hmiss : ¬ (c.queueName = f.queueName ∧ Live (d.server.clients c.clientIndex) ∧ 0 ≤ (d.server.clients c.clientIndex).fd)) :
      Moves d t (d.go t d.server (.forwarding r { f with next := f.next + 1 }))
  | breaks (r : Route) (f : Forward) (ht : d.threads t = .forwarding r f) (hnone : sends f.clone.toFields = none) :
      Moves d t (d.go t d.server .stuck)
  | hits (r : Route) (f : Forward) (c : ConsumerInfo) (bufs : List Bytes) (ht : d.threads t = .forwarding r f)
      (hc : d.server.consumers[f.next]? = some c) (hname : c.queueName = f.queueName)
      (hlive : Live (d.server.clients c.clientIndex)) (hbufs : sends f.clone.toFields = some bufs) :
      Moves d t (d.go t d.server (.sending r { f with next := f.next + 1 } (d.server.clients c.clientIndex).fd bufs))
  | sent (r : Route) (f : Forward) (fd : Int) (ht : d.threads t = .sending r f fd []) :
      Moves d t (d.go t d.server (.forwarding r f))
  | writes (r : Route) (f : Forward) (fd : Int) (buf : Bytes) (left : List Bytes)
      (ht : d.threads t = .sending r f fd (buf :: left)) :
      Moves d t (d.go t { d.server with outlets := Function.update d.server.outlets fd (send buf (d.server.outlets fd)).2 }
        (if (send buf (d.server.outlets fd)).1 = some buf.length then .sending r f fd left else .forwarding r f))

theorem routing_moves {d : Dispatch} {t : Nat} {r : Route} (ht : d.threads t = .routing r) :
    Moves d t (threadStep d t) := by
  have hin : BetweenCopies (d.threads t) := by rw [ht]; trivial
  simp only [threadStep, ht]
  cases r.left with
  | nil =>
    unfold afterRouting
    dsimp only
    split
    · exact .leaves d.server.heap _ hin id
    · exact .leaves _ _ hin id
  | cons b bs =>
    dsimp only
    cases bindingMatches d.server r.exchange r.message.routingKey b with
    | none => exact .between d.server.heap _ hin trivial
    | some hit =>
    cases hit with
    | false => exact .between d.server.heap _ hin trivial
    | true =>
      dsimp only
      cases messageClone r.message d.server.heap with
      | mk clone heap =>
      cases clone with
      | none => exact .between heap _ hin trivial
      | some clone => exact .between heap _ hin trivial

theorem storing_moves {d : Dispatch} {t : Nat} {r : Route} {b : Binding} {clone : Message}
    (ht : d.threads t = .storing r b clone) :
    Moves d t (threadStep d t) := by
  have hin : BetweenCopies (d.threads t) := by rw [ht]; trivial
  simp only [threadStep, ht]
  by_cases hfull : (d.server.queues b.queue).size = (d.server.queues b.queue).capacity
  · have htry : queueTryEnqueue (d.server.queues b.queue) (some clone) = (0, d.server.queues b.queue) := if_pos hfull
    rw [htry, if_neg (not_not_intro rfl), Function.update_eq_self]
    exact .between _ _ hin trivial
  · have htry : queueTryEnqueue (d.server.queues b.queue) (some clone) = (1, pushTail (d.server.queues b.queue) clone) :=
      if_neg hfull
    rw [htry, if_pos one_ne_zero]
    exact .stores r b clone ht hfull

theorem forwarding_moves {d : Dispatch} {t : Nat} {r : Route} {f : Forward} (ht : d.threads t = .forwarding r f) :
    Moves d t (threadStep d t) := by
  simp only [threadStep, ht]
  cases hc : d.server.consumers[f.next]? with
  | none => exact .passes r f ht hc
  | some c =>
    dsimp only
    by_cases hhit : c.queueName = f.queueName ∧ Live (d.server.clients c.clientIndex)
    · rw [if_pos hhit]
      by_cases hneg : (d.server.clients c.clientIndex).fd < 0
      · rw [if_pos hneg]
        exact .skips r f c ht hc fun h => absurd h.2.2 (by omega)
      · rw [if_neg hneg]
        cases hbufs : sends f.clone.toFields with
        | none => exact .breaks r f ht hbufs
        | some bufs => exact .hits r f c bufs ht hc hhit.1 hhit.2 hbufs
    · rw [if_neg hhit]
      exact .skips r f c ht hc fun h => hhit ⟨h.1, h.2.1⟩

theorem threadStep_moves (d : Dispatch) (t : Nat) : Moves d t (threadStep d t) := by
  cases ht : d.threads t with
  | idle =>
    have hrests : threadStep d t = d := by simp only [threadStep, ht]
    rw [hrests]
    exact .rests
  | stuck =>
    have hrests : threadStep d t = d := by simp only [threadStep, ht]
    rw [hrests]
    exact .rests
  | entering exchange message =>
    simp only [threadStep, ht]
    split
    · rename_i hfree
      exact .enters _ hfree
    · exact .rests
  | returning message routed =>
    have hout : ¬ Inside (d.threads t) := by
      rw [ht]
      exact id
    simp only [threadStep, ht]
    split
    · exact .outside _ .idle hout id
    · exact .outside d.server.heap .idle hout id
  | routing r => exact routing_moves ht
  | storing r b clone => exact storing_moves ht
  | forwarding r f => exact forwarding_moves ht
  | sending r f fd left =>
    cases left with
    | nil =>
      simp only [threadStep, ht]
      exact .sent r f fd ht
    | cons buf left =>
      simp only [threadStep, ht]
      have hwrites := Moves.writes r f fd buf left ht
      split
      · rename_i hfull
        rwa [if_pos hfull] at hwrites
      · rename_i hshort
        rwa [if_neg hshort] at hwrites

/-! ## What every step keeps -/

/-- The tables, the names of the queues and the socket of client `i` are as they were. -/
structure Calm (i : Nat) (s s' : Server) : Prop where
  clients : s'.clients = s.clients
  consumers : s'.consumers = s.consumers
  names : ∀ q, (s'.queues q).name = (s.queues q).name
  outlet : s'.outlets (s.clients i).fd = s.outlets (s.clients i).fd

theorem Calm.refl (i : Nat) (s : Server) : Calm i s s := ⟨rfl, rfl, fun _ => rfl, rfl⟩

theorem calm_heap (i : Nat) (s : Server) (heap : Heap) : Calm i s { s with heap } := ⟨rfl, rfl, fun _ => rfl, rfl⟩

theorem Calm.trans {i : Nat} {s s' s'' : Server} (h : Calm i s s') (h' : Calm i s' s'') : Calm i s s'' := by
  refine ⟨h'.clients.trans h.clients, h'.consumers.trans h.consumers, fun q => (h'.names q).trans (h.names q), ?_⟩
  have houtlet := h'.outlet
  rw [h.clients] at houtlet
  exact houtlet.trans h.outlet

/-- With `start` the server when the run began. -/
structure Serves (start : Server) (i : Nat) (d : Dispatch) : Prop where
  lock : Lock.Excludes Inside d.holder d.threads
  clients : d.server.clients = start.clients
  consumers : d.server.consumers = start.consumers
  names : ∀ q, (d.server.queues q).name = (start.queues q).name
  complete : Complete (d.server.outlets (start.clients i).fd)
  stream : (d.server.outlets (start.clients i).fd).stream ++ owed start i (Lock.current .idle d.holder d.threads) =
    (start.outlets (start.clients i).fd).stream ++ (copiesFor start i d.log).flatMap fun c => frameOf c.toFields
  last : AtLast start i d.log (Lock.current .idle d.holder d.threads)

section Step

variable {start : Server} {i : Nat} {d : Dispatch} {t : Nat} {s : Server} {p : Place}

/-- A calm step after which the holder, if any, owes what it did. -/
theorem Serves.calm (h : Serves start i d) (hs : Calm i d.server s) {holder : Option Nat}
    (hlock : Lock.Excludes Inside holder (Function.update d.threads t p))
    (howed : owed start i (Lock.current .idle holder (Function.update d.threads t p)) =
      owed start i (Lock.current .idle d.holder d.threads))
    (hlast : AtLast start i d.log (Lock.current .idle holder (Function.update d.threads t p))) :
    Serves start i { d.go t s p with holder } := by
  have houtlet : s.outlets (start.clients i).fd = d.server.outlets (start.clients i).fd := by
    rw [← h.clients]
    exact hs.outlet
  refine ⟨hlock, hs.clients.trans h.clients, hs.consumers.trans h.consumers, fun q => (hs.names q).trans (h.names q), ?_, ?_, hlast⟩
  · show Complete (s.outlets _)
    rw [houtlet]
    exact h.complete
  · show (s.outlets _).stream ++ owed start i (Lock.current .idle holder (Function.update d.threads t p)) = _
    rw [houtlet, howed]
    exact h.stream

/-- A thread that does not hold the mutex, and does not take it. -/
theorem Serves.outside (h : Serves start i d) (ht : ¬ Inside (d.threads t)) (hs : Calm i d.server s) (hp : ¬ Inside p) :
    Serves start i (d.go t s p) := by
  have hcurrent : Lock.current Place.idle d.holder (Function.update d.threads t p) = Lock.current .idle d.holder d.threads :=
    h.lock.current_other ht
  exact h.calm hs (h.lock.stay (iff_of_false hp ht)) (congrArg _ hcurrent) (by rw [hcurrent]; exact h.last)

/-- The thread that holds the mutex, and keeps it. -/
theorem Serves.inside (h : Serves start i d) (ht : Inside (d.threads t)) (hs : Calm i d.server s) (hp : Inside p)
    (howed : owed start i p = owed start i (d.threads t)) (hlast : AtLast start i d.log p) : Serves start i (d.go t s p) := by
  have hholder : d.holder = some t := (h.lock t).mp ht
  have hbefore : Lock.current Place.idle d.holder d.threads = d.threads t := by rw [hholder]; rfl
  have hafter : Lock.current Place.idle d.holder (Function.update d.threads t p) = p := by
    rw [hholder]
    exact Lock.current_self
  exact h.calm hs (h.lock.stay (iff_of_true hp ht)) (by rw [hbefore, hafter, howed]) (by rw [hafter]; exact hlast)

theorem timeouts_name (q : Queue Message) (now timeout : Int) : (queueProcessTimeouts q now timeout).1.name = q.name := by
  have hpass : ∀ (cells : List Nat) (p : Pass Message), (cells.foldl (timeoutStep now timeout) p).q.name = p.q.name := by
    intro cells
    induction cells with
    | nil => exact fun _ => rfl
    | cons j cells ih =>
      intro p
      rw [List.foldl_cons, ih]
      unfold timeoutStep
      split
      · dsimp only
        split
        · rfl
        · rfl
      · rfl
  unfold queueProcessTimeouts
  split
  · rfl
  · dsimp only
    split
    · exact hpass _ _
    · exact hpass _ _

theorem calm_timeouts (i : Nat) (now : Int) (n : Node) : Calm i n.server (processTimeouts now n).server := by
  have hall : ∀ (qs : List Nat) (s : Server), Calm i s (qs.foldl (processQueueTimeouts now) s) := by
    intro qs
    induction qs with
    | nil => exact Calm.refl i
    | cons q qs ih =>
      intro s
      have hone : Calm i s (processQueueTimeouts now s q) := by
        refine ⟨rfl, rfl, fun q' => ?_, rfl⟩
        by_cases hq : q' = q
        · subst hq
          simp only [processQueueTimeouts, Function.update_self]
          exact timeouts_name _ _ _
        · simp only [processQueueTimeouts, Function.update_of_ne hq]
      exact hone.trans (ih _)
  exact hall n.queueTable n.server

theorem calm_store (i : Nat) (s : Server) (q : Nat) {q' : Queue Message} (hname : q'.name = (s.queues q).name) :
    Calm i s { s with queues := Function.update s.queues q q' } := by
  refine ⟨rfl, rfl, fun j => ?_, rfl⟩
  by_cases hj : j = q
  · subst hj
    simp only [Function.update_self]
    exact hname
  · simp only [Function.update_of_ne hj]

theorem between_inside (start : Server) (i : Nat) (hp : BetweenCopies p) : Inside p ∧ owed start i p = [] := by
  cases p with
  | routing r => exact ⟨trivial, rfl⟩
  | storing r b clone => exact ⟨trivial, rfl⟩
  | stuck => exact ⟨trivial, rfl⟩
  | idle => exact hp.elim
  | entering exchange message => exact hp.elim
  | forwarding r f => exact hp.elim
  | sending r f fd left => exact hp.elim
  | returning message routed => exact hp.elim

theorem between_last {log : List (Nat × Message)} (hp : BetweenCopies p) : AtLast start i log p := by
  cases p with
  | forwarding r f => exact hp.elim
  | sending r f fd left => exact hp.elim
  | _ => trivial

theorem serves_enter (h : Serves start i d) (hfree : d.holder = none) (r : Route) :
    Serves start i { d.go t d.server (.routing r) with holder := some t } := by
  have hlock := h.lock
  rw [hfree] at hlock
  refine h.calm (Calm.refl i _) (hlock.take trivial) ?_ ?_
  · rw [hfree, Lock.current_self]
    rfl
  · rw [Lock.current_self]
    exact trivial

theorem serves_leave (h : Serves start i d) (ht : BetweenCopies (d.threads t)) (hs : Calm i d.server s)
    (hp : ¬ Inside p) : Serves start i { d.go t s p with holder := none } := by
  obtain ⟨hin, howed⟩ := between_inside start i ht
  have hholder : d.holder = some t := (h.lock t).mp hin
  have hlock := h.lock
  rw [hholder] at hlock
  refine h.calm hs (hlock.release hp) ?_ trivial
  rw [hholder, Lock.current_some, howed]
  rfl

/-- The place of the holder when it is thread `t`. -/
theorem Serves.at_place (h : Serves start i d) (hp : d.threads t = p) (hin : Inside p) :
    Inside (d.threads t) ∧ d.holder = some t ∧ AtLast start i d.log p ∧
      (d.server.outlets (start.clients i).fd).stream ++ owed start i p =
        (start.outlets (start.clients i).fd).stream ++ (copiesFor start i d.log).flatMap fun c => frameOf c.toFields := by
  have hinside : Inside (d.threads t) := by rwa [hp]
  have hholder : d.holder = some t := (h.lock t).mp hinside
  have hlast := h.last
  have hstream := h.stream
  rw [hholder, Lock.current_some, hp] at hlast hstream
  exact ⟨hinside, hholder, hlast, hstream⟩

/-- The client has at most one entry under a name: a copy is owed once or not at all. -/
theorem owed_at_first (hreg : RegisteredOnce start i) (name : CString) (clone : Message) :
    toCome start i ⟨name, clone, 0⟩ = if ⟨i, name⟩ ∈ start.consumers then frameOf clone.toFields else [] := by
  have honce := hreg.once name
  simp only [toCome, List.drop_zero]
  by_cases hm : ⟨i, name⟩ ∈ start.consumers
  · have hone : start.consumers.count ⟨i, name⟩ = 1 := by
      have := List.count_pos_iff.mpr hm
      omega
    rw [hone, if_pos hm, List.replicate_one, List.flatten_singleton]
  · rw [List.count_eq_zero_of_not_mem hm, if_neg hm]
    rfl

theorem copiesFor_snoc (start : Server) (i : Nat) (log : List (Nat × Message)) (q : Nat) (clone : Message) :
    copiesFor start i (log ++ [(q, clone)]) = copiesFor start i log ++ if Subscribed start i q then [clone] else [] := by
  unfold copiesFor
  rw [List.filter_append, List.map_append, List.filter_singleton]
  by_cases hsub : Subscribed start i q
  · simp [hsub]
  · simp [hsub]

/-- The copy just enqueued is owed to the client if it is registered for the queue. -/
theorem afterStore_owes (hreg : RegisteredOnce start i) {q : Queue Message} {queue : Nat}
    (hname : q.name = (start.queues queue).name) (r : Route) (clone : Message) (log : List (Nat × Message)) :
    Inside (afterStore r q clone) ∧ AtLast start i (log ++ [(queue, clone)]) (afterStore r q clone) ∧
      owed start i (afterStore r q clone) = if Subscribed start i queue then frameOf clone.toFields else [] := by
  unfold afterStore
  cases hq : q.name with
  | none =>
    rw [hq] at hname
    have hnot : ¬ Subscribed start i queue := by
      intro hsub
      obtain ⟨name, he, -⟩ := hsub
      rw [← hname] at he
      cases he
    rw [if_neg hnot]
    exact ⟨trivial, trivial, rfl⟩
  | some name =>
    rw [hq] at hname
    have hiff : Subscribed start i queue ↔ ⟨i, name⟩ ∈ start.consumers := by
      constructor
      · intro hsub
        obtain ⟨name', he, hm⟩ := hsub
        rw [← hname] at he
        cases he
        exact hm
      · exact fun hm => ⟨name, hname.symm, hm⟩
    refine ⟨trivial, ⟨log, queue, rfl, hname.symm⟩, ?_⟩
    show toCome start i ⟨name, clone, 0⟩ = _
    simp only [owed_at_first hreg, hiff]

theorem serves_store (hreg : RegisteredOnce start i) (h : Serves start i d) {r : Route} {b : Binding} {clone : Message}
    (ht : d.threads t = .storing r b clone) {q : Queue Message} (hname : q.name = (d.server.queues b.queue).name) :
    Serves start i { d.go t { d.server with queues := Function.update d.server.queues b.queue q } (afterStore r q clone) with
      log := d.log ++ [(b.queue, clone)] } := by
  obtain ⟨hin, hholder, -, hstream⟩ := h.at_place ht trivial
  have hs := calm_store i d.server b.queue hname
  obtain ⟨hp, hlast, howed⟩ := afterStore_owes hreg (hname.trans (h.names _)) r clone d.log
  have hafter : Lock.current Place.idle d.holder (Function.update d.threads t (afterStore r q clone)) = afterStore r q clone := by
    rw [hholder]
    exact Lock.current_self
  refine ⟨h.lock.stay (iff_of_true hp hin), h.clients, h.consumers, fun j => (hs.names j).trans (h.names j), h.complete, ?_, ?_⟩
  · show (d.server.outlets _).stream ++ owed start i (Lock.current Place.idle d.holder (Function.update d.threads t _)) =
      _ ++ (copiesFor start i (d.log ++ [(b.queue, clone)])).flatMap _
    rw [owed, List.append_nil] at hstream
    rw [hafter, howed, hstream, copiesFor_snoc, List.flatMap_append, List.append_assoc]
    congr 2
    split
    · rw [List.flatMap_singleton]
    · rfl
  · show AtLast start i (d.log ++ [(b.queue, clone)]) (Lock.current Place.idle d.holder (Function.update d.threads t _))
    rw [hafter]
    exact hlast

/-! ### In `forward_message_to_consumers` -/

/-- An entry that is not the client's under the name, or is skipped. -/
theorem owed_skip {f : Forward} {c : ConsumerInfo} (hc : start.consumers[f.next]? = some c) (hne : c ≠ ⟨i, f.queueName⟩) :
    toCome start i { f with next := f.next + 1 } = toCome start i f := by
  obtain ⟨hlt, he⟩ := List.getElem?_eq_some_iff.mp hc
  unfold toCome
  rw [List.drop_eq_getElem_cons hlt, he, List.count_cons_of_ne hne]

/-- The client's own entry. -/
theorem owed_own {f : Forward} (hc : start.consumers[f.next]? = some ⟨i, f.queueName⟩) :
    toCome start i f = frameOf f.clone.toFields ++ toCome start i { f with next := f.next + 1 } := by
  obtain ⟨hlt, he⟩ := List.getElem?_eq_some_iff.mp hc
  unfold toCome
  rw [List.drop_eq_getElem_cons hlt, he, List.count_cons_self, List.replicate_succ, List.flatten_cons]

theorem owed_past {f : Forward} (hend : start.consumers[f.next]? = none) : toCome start i f = [] := by
  rw [toCome, List.drop_of_length_le (List.getElem?_eq_none_iff.mp hend)]
  rfl

theorem owed_unreadable {f : Forward} (hnone : sends f.clone.toFields = none) : toCome start i f = [] := by
  rw [toCome, frameOf, hnone]
  simp

/-- The client's own entry is hit when its descriptor is. -/
theorem own_entry (hreg : RegisteredOnce start i) {f : Forward} {c : ConsumerInfo} (hname : c.queueName = f.queueName)
    (hlive : Live (start.clients c.clientIndex)) :
    c = ⟨i, f.queueName⟩ ↔ (start.clients c.clientIndex).fd = (start.clients i).fd := by
  constructor
  · intro he
    rw [he]
  · intro hfd
    obtain ⟨j, name⟩ := c
    rw [show j = i from hreg.own j hlive hfd, show name = f.queueName from hname]

theorem serves_skip (hreg : RegisteredOnce start i) (h : Serves start i d) {r : Route} {f : Forward} {c : ConsumerInfo}
    (ht : d.threads t = .forwarding r f) (hc : start.consumers[f.next]? = some c)
    (hmiss : ¬ (c.queueName = f.queueName ∧ Live (start.clients c.clientIndex) ∧ 0 ≤ (start.clients c.clientIndex).fd)) :
    Serves start i (d.go t d.server (.forwarding r { f with next := f.next + 1 })) := by
  obtain ⟨hin, -, hlast, -⟩ := h.at_place ht trivial
  have hne : c ≠ ⟨i, f.queueName⟩ := by
    intro he
    rw [he] at hmiss
    exact hmiss ⟨rfl, hreg.live, hreg.fd⟩
  refine h.inside hin (Calm.refl i _) trivial ?_ hlast
  rw [ht, owed, owed, owed_skip hc hne]

theorem serves_hit (hreg : RegisteredOnce start i) (h : Serves start i d) {r : Route} {f : Forward} {c : ConsumerInfo}
    {bufs : List Bytes} (ht : d.threads t = .forwarding r f) (hc : start.consumers[f.next]? = some c)
    (hname : c.queueName = f.queueName) (hlive : Live (start.clients c.clientIndex))
    (hbufs : sends f.clone.toFields = some bufs) :
    Serves start i (d.go t d.server (.sending r { f with next := f.next + 1 } (start.clients c.clientIndex).fd bufs)) := by
  obtain ⟨hin, -, hlast, -⟩ := h.at_place ht trivial
  have hown := own_entry hreg hname hlive
  have hframe : frameOf f.clone.toFields = bufs.flatten := by rw [frameOf, hbufs, Option.getD_some]
  refine h.inside hin (Calm.refl i _) trivial ?_ ⟨hlast, by rw [hframe], ?_⟩
  · rw [ht, owed, owed]
    by_cases hfd : (start.clients c.clientIndex).fd = (start.clients i).fd
    · rw [hown.mpr hfd] at hc
      rw [if_pos hfd, owed_own hc, hframe]
    · rw [if_neg hfd, List.nil_append]
      exact owed_skip hc fun he => hfd (hown.mp he)
  · intro hfd
    rw [← hown.mpr hfd]
    obtain ⟨hlt, he⟩ := List.getElem?_eq_some_iff.mp hc
    exact List.mem_take_iff_getElem.mpr ⟨f.next, Nat.lt_min.mpr ⟨Nat.lt_succ_self _, hlt⟩, he⟩

theorem serves_sent (h : Serves start i d) {r : Route} {f : Forward} {fd : Int} (ht : d.threads t = .sending r f fd []) :
    Serves start i (d.go t d.server (.forwarding r f)) := by
  obtain ⟨hin, -, hlast, -⟩ := h.at_place ht trivial
  refine h.inside hin (Calm.refl i _) trivial ?_ hlast.1
  rw [ht, owed, owed, List.flatten_nil, ite_self, List.nil_append]

/-- A send to the client appends its buffer; one to another leaves the client's stream. -/
theorem serves_write (h : Serves start i d) {r : Route} {f : Forward} {fd : Int} {buf : Bytes} {left : List Bytes}
    (ht : d.threads t = .sending r f fd (buf :: left)) :
    Serves start i (d.go t { d.server with outlets := Function.update d.server.outlets fd (send buf (d.server.outlets fd)).2 }
      (if (send buf (d.server.outlets fd)).1 = some buf.length then .sending r f fd left else .forwarding r f)) := by
  obtain ⟨hin, hholder, ⟨hforwards, hsuffix, hentry⟩, hstream⟩ := h.at_place ht trivial
  rw [List.flatten_cons] at hsuffix
  have hrest : left.flatten <:+ frameOf f.clone.toFields := (List.suffix_append buf left.flatten).trans hsuffix
  by_cases hfd : fd = (start.clients i).fd
  · have hsend : send buf (d.server.outlets fd) = (some buf.length,
        { d.server.outlets fd with stream := (d.server.outlets fd).stream ++ buf, calls := (d.server.outlets fd).calls + 1 }) := by
      rw [hfd]
      simp only [send, h.complete _]
    have hafter : Lock.current Place.idle d.holder (Function.update d.threads t (.sending r f fd left)) = .sending r f fd left := by
      rw [hholder]
      exact Lock.current_self
    rw [owed, if_pos hfd, List.flatten_cons, ← hfd] at hstream
    rw [hsend]
    simp only [if_true]
    refine ⟨h.lock.stay (iff_of_true trivial hin), h.clients, h.consumers, h.names, ?_, ?_, ?_⟩
    · show Complete (Function.update d.server.outlets fd _ _)
      rw [hfd, Function.update_self]
      intro k
      exact h.complete k
    · show (Function.update d.server.outlets fd _ _).stream ++
        owed start i (Lock.current Place.idle d.holder (Function.update d.threads t _)) = _
      rw [hafter, owed, if_pos hfd, ← hfd, Function.update_self]
      simp only [List.append_assoc] at hstream ⊢
      exact hstream
    · show AtLast start i d.log (Lock.current Place.idle d.holder (Function.update d.threads t _))
      rw [hafter]
      exact ⟨hforwards, hrest, hentry⟩
  · have hcalm : Calm i d.server { d.server with outlets := Function.update d.server.outlets fd (send buf (d.server.outlets fd)).2 } := by
      refine ⟨rfl, rfl, fun _ => rfl, Function.update_of_ne ?_ ..⟩
      rw [h.clients]
      exact Ne.symm hfd
    split
    · exact h.inside hin hcalm trivial (by rw [ht, owed, owed, if_neg hfd, if_neg hfd]) ⟨hforwards, hrest, hentry⟩
    · exact h.inside hin hcalm trivial (by rw [ht, owed, owed, if_neg hfd, List.nil_append]) hforwards

theorem serves_moves (hreg : RegisteredOnce start i) (h : Serves start i d) {d' : Dispatch} (hm : Moves d t d') :
    Serves start i d' := by
  cases hm with
  | rests => exact h
  | outside heap p ht hp => exact h.outside ht (calm_heap i _ heap) hp
  | enters r hfree => exact serves_enter h hfree r
  | leaves heap p ht hp => exact serves_leave h ht (calm_heap i _ heap) hp
  | between heap p ht hp =>
    obtain ⟨hin, howed⟩ := between_inside start i ht
    obtain ⟨hin', howed'⟩ := between_inside start i hp
    exact h.inside hin (calm_heap i _ heap) hin' (howed'.trans howed.symm) (between_last hp)
  | stores r b clone ht hroom => exact serves_store hreg h ht rfl
  | passes r f ht hend =>
    obtain ⟨hin, -, -, -⟩ := h.at_place ht trivial
    rw [h.consumers] at hend
    exact h.inside hin (Calm.refl i _) trivial (by rw [ht, owed, owed, owed_past hend]) trivial
  | skips r f c ht hc hmiss =>
    rw [h.consumers] at hc
    rw [h.clients] at hmiss
    exact serves_skip hreg h ht hc hmiss
  | breaks r f ht hnone =>
    obtain ⟨hin, -, -, -⟩ := h.at_place ht trivial
    exact h.inside hin (Calm.refl i _) trivial (by rw [ht, owed, owed, owed_unreadable hnone]) trivial
  | hits r f c bufs ht hc hname hlive hbufs =>
    rw [h.consumers] at hc
    rw [h.clients] at hlive ⊢
    exact serves_hit hreg h ht hc hname hlive hbufs
  | sent r f fd ht => exact serves_sent h ht
  | writes r f fd buf left ht => exact serves_write h ht

end Step

theorem serves_step {start : Server} {i : Nat} (hreg : RegisteredOnce start i) (d : Dispatch) (e : DispatchEvent)
    (h : Serves start i d) : Serves start i (dispatchStep d e) := by
  cases e with
  | step t => exact serves_moves hreg h (threadStep_moves d t)
  | publish t exchange message =>
    simp only [dispatchStep, publishBegins]
    cases ht : d.threads t with
    | idle =>
      have hout : ¬ Inside (d.threads t) := by
        rw [ht]
        exact id
      dsimp only
      cases messageClone message d.server.heap with
      | mk clone heap =>
      cases clone with
      | none => exact h.outside hout (calm_heap i _ _) id
      | some clone => exact h.outside hout (calm_heap i _ _) id
    | _ => exact h
  | timeouts now =>
    simp only [dispatchStep]
    split
    · obtain ⟨hclients, hconsumers, hnames, houtlet⟩ := calm_timeouts i now d.node
      have houtlet' : (processTimeouts now d.node).server.outlets (start.clients i).fd = d.server.outlets (start.clients i).fd := by
        rw [← h.clients]
        exact houtlet
      refine ⟨h.lock, hclients.trans h.clients, hconsumers.trans h.consumers, fun q => (hnames q).trans (h.names q), ?_, ?_, h.last⟩
      · show Complete ((processTimeouts now d.node).server.outlets _)
        rw [houtlet']
        exact h.complete
      · show ((processTimeouts now d.node).server.outlets _).stream ++ _ = _
        rw [houtlet']
        exact h.stream
    · exact h

/-! ## Whole runs -/

/-- The stream of client `i`: the frames of the copies put in its queues since `start`, in
    order. While a message is being routed the end of the last one may still be to come. -/
structure WholeAndOrdered (start : Server) (i : Nat) (d : Dispatch) : Prop where
  whole : d.holder = none → (d.server.outlets (start.clients i).fd).stream =
    (start.outlets (start.clients i).fd).stream ++ (copiesFor start i d.log).flatMap fun c => frameOf c.toFields
  underWay : ∃ left, (d.server.outlets (start.clients i).fd).stream ++ left =
      (start.outlets (start.clients i).fd).stream ++ ((copiesFor start i d.log).flatMap fun c => frameOf c.toFields) ∧
    (left = [] ∨ ∃ cs c, copiesFor start i d.log = cs ++ [c] ∧ left <:+ frameOf c.toFields)

section Owed

variable {start : Server} {i : Nat} {log : List (Nat × Message)} {f : Forward}

theorem last_copy (hlast : Forwards start log f) (hm : ⟨i, f.queueName⟩ ∈ start.consumers) :
    ∃ cs, copiesFor start i log = cs ++ [f.clone] := by
  obtain ⟨cs, q, rfl, hname⟩ := hlast
  have hsub : Subscribed start i q := ⟨f.queueName, hname, hm⟩
  exact ⟨copiesFor start i cs, by rw [copiesFor_snoc, if_pos hsub]⟩

theorem toCome_suffix (hreg : RegisteredOnce start i) (hlast : Forwards start log f) :
    toCome start i f = [] ∨ ∃ cs c, copiesFor start i log = cs ++ [c] ∧ toCome start i f <:+ frameOf c.toFields := by
  by_cases hm : ⟨i, f.queueName⟩ ∈ start.consumers.drop f.next
  · have hle : (start.consumers.drop f.next).count ⟨i, f.queueName⟩ ≤ start.consumers.count ⟨i, f.queueName⟩ :=
      (List.drop_sublist f.next start.consumers).count_le _
    have hpos := List.count_pos_iff.mpr hm
    have honce := hreg.once f.queueName
    have hone : (start.consumers.drop f.next).count ⟨i, f.queueName⟩ = 1 := by omega
    obtain ⟨cs, hcs⟩ := last_copy hlast (List.mem_of_mem_drop hm)
    refine Or.inr ⟨cs, f.clone, hcs, ?_⟩
    rw [toCome, hone, List.replicate_one, List.flatten_singleton]
  · rw [toCome, List.count_eq_zero_of_not_mem hm]
    exact Or.inl rfl

theorem owed_suffix (hreg : RegisteredOnce start i) {p : Place} (hlast : AtLast start i log p) :
    owed start i p = [] ∨ ∃ cs c, copiesFor start i log = cs ++ [c] ∧ owed start i p <:+ frameOf c.toFields := by
  cases p with
  | forwarding r f => exact toCome_suffix hreg hlast
  | sending r f fd left =>
    obtain ⟨hforwards, hsuffix, hentry⟩ := hlast
    rw [owed]
    by_cases hfd : fd = (start.clients i).fd
    · -- the client's only entry is behind
      have hm := hentry hfd
      have hsplit : (start.consumers.take f.next).count ⟨i, f.queueName⟩ + (start.consumers.drop f.next).count ⟨i, f.queueName⟩ =
          start.consumers.count ⟨i, f.queueName⟩ := by
        rw [← List.count_append, List.take_append_drop]
      have hpos := List.count_pos_iff.mpr hm
      have honce := hreg.once f.queueName
      have hnone : (start.consumers.drop f.next).count ⟨i, f.queueName⟩ = 0 := by omega
      obtain ⟨cs, hcs⟩ := last_copy hforwards (List.mem_of_mem_take hm)
      refine Or.inr ⟨cs, f.clone, hcs, ?_⟩
      rw [if_pos hfd, toCome, hnone, List.replicate_zero, List.flatten_nil, List.append_nil]
      exact hsuffix
    · rw [if_neg hfd, List.nil_append]
      exact toCome_suffix hreg hforwards
  | idle => exact Or.inl rfl
  | entering exchange message => exact Or.inl rfl
  | routing r => exact Or.inl rfl
  | storing r b clone => exact Or.inl rfl
  | returning message routed => exact Or.inl rfl
  | stuck => exact Or.inl rfl

end Owed

theorem dispatching_serves {n : Node} {i : Nat} (hc : Complete (n.server.outlets (n.server.clients i).fd)) :
    Serves n.server i n.dispatching := by
  refine ⟨fun t => iff_of_false id (Option.some_ne_none t).symm, rfl, rfl, fun _ => rfl, hc, ?_, trivial⟩
  rfl

/-- Any number of threads, their steps and the event loop's passes in any order. -/
theorem streams_are_whole (n : Node) {i : Nat} (hreg : RegisteredOnce n.server i)
    (hc : Complete (n.server.outlets (n.server.clients i).fd)) (es : List DispatchEvent) :
    WholeAndOrdered n.server i (Run.run dispatchStep n.dispatching es) := by
  have hserves := Run.run_inv (serves_step hreg) es (dispatching_serves hc)
  refine ⟨fun hfree => ?_, ⟨_, hserves.stream, owed_suffix hreg hserves.last⟩⟩
  have hstream := hserves.stream
  rw [hfree, Lock.current_none, owed, List.append_nil] at hstream
  exact hstream

/-- An empty queue of two slots. -/
def twoSlots : Queue Message := { emptyQueue with capacity := 2 }

/-- Exchange 0 with queue 0, "a", bound to it, and client 0 registered for "a". -/
def aBroker : Node where
  server := { serverWith (fun _ => twoSlots) [⟨0, 0, none⟩] binding_fits with
    clients := fun j => ⟨4 + j, false, nothing.exchange, true⟩
    consumers := [⟨0, twoBytes.exchange⟩] }
  queueTable := [0]
  queuesFit := queue_fits

theorem aBroker_registered : RegisteredOnce aBroker.server 0 := by
  refine ⟨⟨by decide, rfl⟩, by decide, ?_, ?_⟩
  · intro j _ hfd
    have he : (4 : Int) + j = 4 + (0 : Nat) := hfd
    omega
  · intro name
    exact List.count_le_length

/-- Two threads publish a message each and take turns. -/
def inTurns : List DispatchEvent :=
  [.publish 1 0 aMessage, .publish 2 0 aMessage] ++ (List.replicate 40 [.step 1, .step 2]).flatten

theorem streams_are_whole_in_turns : WholeAndOrdered aBroker.server 0 (Run.run dispatchStep aBroker.dispatching inTurns) :=
  streams_are_whole aBroker aBroker_registered (fun _ => rfl) inTurns

/-! ## The log and the queues -/

/-- A step stores nothing, or one copy at the tail of a queue with room. -/
theorem moves_stores {d d' : Dispatch} {t : Nat} (hm : Moves d t d') :
    (d'.server.queues = d.server.queues ∧ d'.log = d.log) ∨
      ∃ q clone, (d.server.queues q).size ≠ (d.server.queues q).capacity ∧
        d'.server.queues = Function.update d.server.queues q (pushTail (d.server.queues q) clone) ∧
        d'.log = d.log ++ [(q, clone)] := by
  cases hm with
  | stores r b clone ht hroom => exact Or.inr ⟨b.queue, clone, hroom, rfl, rfl⟩
  | _ => exact Or.inl ⟨rfl, rfl⟩

/-- Each ring has what it had at the start and what the log has for it since. -/
structure Enqueued (start : Server) (d : Dispatch) : Prop where
  slots : ∀ q, SlotsOk (d.server.queues q)
  ring : ∀ q, ready (d.server.queues q) = ready (start.queues q) ++ (d.log.filter (·.1 = q)).map (·.2)
  unacked : ∀ q, (d.server.queues q).unackedCount = 0

theorem enqueued_congr {start : Server} {d d' : Dispatch} (h : Enqueued start d) (hq : d'.server.queues = d.server.queues)
    (hlog : d'.log = d.log) : Enqueued start d' := by
  refine ⟨fun q => ?_, fun q => ?_, fun q => ?_⟩
  · rw [hq]
    exact h.slots q
  · rw [hq, hlog]
    exact h.ring q
  · rw [hq]
    exact h.unacked q

theorem enqueued_step {start : Server} (d : Dispatch) (e : DispatchEvent) (h : Enqueued start d) :
    Enqueued start (dispatchStep d e) := by
  cases e with
  | publish t exchange message =>
    simp only [dispatchStep, publishBegins]
    split
    · split
      · exact enqueued_congr h rfl rfl
      · exact enqueued_congr h rfl rfl
    · exact h
  | timeouts now =>
    simp only [dispatchStep]
    split
    · have hidle : processTimeouts now d.node = d.node := processTimeouts_idle h.unacked
      exact enqueued_congr h (by rw [Dispatch.server, hidle]; rfl) rfl
    · exact h
  | step t =>
    rcases moves_stores (threadStep_moves d t) with ⟨hq, hlog⟩ | ⟨q, clone, hroom, hq, hlog⟩
    · exact enqueued_congr h hq hlog
    · have hlt : (d.server.queues q).size.toNat < (d.server.queues q).capacity.toNat := by
        have hle := (h.slots q).sizeLe
        have hne : (d.server.queues q).size.toNat ≠ (d.server.queues q).capacity.toNat := fun he => hroom (UInt64.toNat_inj.mp he)
        omega
      obtain ⟨hslots, hready⟩ := pushTail_slots (h.slots q) clone hlt
      refine ⟨fun q' => ?_, fun q' => ?_, fun q' => ?_⟩
      · simp only [dispatchStep, hq]
        by_cases hqq : q' = q
        · rw [hqq, Function.update_self]
          exact hslots
        · rw [Function.update_of_ne hqq]
          exact h.slots q'
      · simp only [dispatchStep, hq, hlog, List.filter_append, List.map_append]
        by_cases hqq : q' = q
        · rw [hqq, Function.update_self, hready, h.ring q, List.append_assoc]
          simp
        · rw [Function.update_of_ne hqq, h.ring q']
          simp [Ne.symm hqq]
      · simp only [dispatchStep, hq]
        by_cases hqq : q' = q
        · rw [hqq, Function.update_self]
          exact h.unacked q
        · rw [Function.update_of_ne hqq]
          exact h.unacked q'

/-- Where no delivery is tracked, the copies logged for a queue are in its ring, in order. -/
theorem logged_is_enqueued {n : Node} (hs : ∀ q, SlotsOk (n.server.queues q))
    (hu : ∀ q, (n.server.queues q).unackedCount = 0) (es : List DispatchEvent) (q : Nat) :
    ready ((Run.run dispatchStep n.dispatching es).server.queues q) =
      ready (n.server.queues q) ++ ((Run.run dispatchStep n.dispatching es).log.filter (·.1 = q)).map (·.2) := by
  have hstart : Enqueued n.server n.dispatching := by
    refine ⟨hs, fun q => ?_, hu⟩
    show ready (n.server.queues q) = _ ++ []
    rw [List.append_nil]
  exact (Run.run_inv enqueued_step es hstart).ring q

/-! ## A thread alone -/

/-- Some steps of thread `t`, with none of another between them, leave the server as `s` and
    the thread at `p`. -/
def Comes (t : Nat) (d : Dispatch) (s : Server) (p : Place) (holder : Option Nat) : Prop :=
  ∃ k, (Run.run dispatchStep d (List.replicate k (.step t))).server = s ∧
    (Run.run dispatchStep d (List.replicate k (.step t))).threads t = p ∧
    (Run.run dispatchStep d (List.replicate k (.step t))).holder = holder

section Alone

variable {t : Nat} {d : Dispatch} {s s' : Server} {p p' : Place} {holder holder' : Option Nat}

theorem comes_here (hs : d.server = s) (hp : d.threads t = p) (hh : d.holder = holder) : Comes t d s p holder :=
  ⟨0, hs, hp, hh⟩

theorem comes_step (h : Comes t (threadStep d t) s p holder) : Comes t d s p holder := by
  obtain ⟨k, hk⟩ := h
  exact ⟨k + 1, hk⟩

theorem Comes.trans (h : Comes t d s p holder)
    (h' : ∀ d', d'.server = s → d'.threads t = p → d'.holder = holder → Comes t d' s' p' holder') :
    Comes t d s' p' holder' := by
  obtain ⟨k, hs, hp, hh⟩ := h
  obtain ⟨k', hk'⟩ := h' _ hs hp hh
  refine ⟨k + k', ?_⟩
  rw [List.replicate_add, Run.run_append]
  exact hk'

theorem go_place : (d.go t s p).threads t = p := Function.update_self ..

theorem sends_alone {r : Route} {f : Forward} {fd : Int} (bufs : List Bytes) (ht : d.threads t = .sending r f fd bufs) :
    Comes t d { d.server with outlets := Function.update d.server.outlets fd (sendEach bufs (d.server.outlets fd)).2 }
      (.forwarding r f) d.holder := by
  induction bufs generalizing d with
  | nil =>
    have hstep : threadStep d t = d.go t d.server (.forwarding r f) := by simp only [threadStep, ht]
    refine comes_step (comes_here ?_ (by rw [hstep]; exact go_place) (by rw [hstep]; rfl))
    rw [hstep, sendEach, Function.update_eq_self]
    rfl
  | cons buf left ih =>
    refine comes_step ?_
    simp only [threadStep, ht, sendEach]
    by_cases hs : (send buf (d.server.outlets fd)).1 = some buf.length
    · rw [if_pos hs, if_pos hs]
      have hrest := ih (d := d.go t
        { d.server with outlets := Function.update d.server.outlets fd (send buf (d.server.outlets fd)).2 }
        (.sending r f fd left)) go_place
      simpa only [Dispatch.server, Dispatch.go, Function.update_self, Function.update_idem] using hrest
    · rw [if_neg hs, if_neg hs]
      exact comes_here rfl go_place rfl

theorem forwards_alone {r : Route} (cs : List ConsumerInfo) {f : Forward} (ht : d.threads t = .forwarding r f)
    (hcs : d.server.consumers.drop f.next = cs) (h : cs.foldlM (forwardStep f.queueName f.clone) d.server = some s') :
    Comes t d s' (.routing r) d.holder := by
  induction cs generalizing f d with
  | nil =>
    have hend : d.server.consumers[f.next]? = none := List.getElem?_eq_none_iff.mpr (List.drop_eq_nil_iff.mp hcs)
    have hstep : threadStep d t = d.go t d.server (.routing r) := by simp only [threadStep, ht, hend]
    cases h
    exact comes_step (comes_here (by rw [hstep]; rfl) (by rw [hstep]; exact go_place) (by rw [hstep]; rfl))
  | cons c cs ih =>
    have hlt : f.next < d.server.consumers.length := by
      by_contra hge
      rw [List.drop_of_length_le (by omega)] at hcs
      cases hcs
    rw [List.drop_eq_getElem_cons hlt] at hcs
    obtain ⟨hc, hrest⟩ := List.cons.inj hcs
    have hhere : d.server.consumers[f.next]? = some c := by rw [List.getElem?_eq_getElem hlt, hc]
    rw [List.foldlM_cons, Option.bind_eq_bind, Option.bind_eq_some_iff] at h
    obtain ⟨s1, h1, h2⟩ := h
    have hnext : ∀ d', d'.server = s1 → d'.threads t = .forwarding r { f with next := f.next + 1 } → d'.holder = d.holder →
        Comes t d' s' (.routing r) d.holder := by
      intro d' hs hp hh
      obtain ⟨outlets, he⟩ := forwardStep_outlets h1
      rw [← hh]
      exact ih hp (by rw [hs, he]; exact hrest) (by rw [hs]; exact h2)
    refine comes_step ?_
    simp only [threadStep, ht, hhere]
    by_cases hhit : c.queueName = f.queueName ∧ Live (d.server.clients c.clientIndex)
    · rw [if_pos hhit]
      rw [forwardStep_sends 0 hhit] at h1
      simp only [forwardTo, Option.map_map, sendMessageData] at h1
      by_cases hneg : (d.server.clients c.clientIndex).fd < 0
      · rw [if_pos hneg] at h1 ⊢
        have hsame := Option.some.inj h1
        simp only [Function.comp_apply, Function.update_eq_self] at hsame
        exact hnext _ hsame go_place rfl
      · rw [if_neg hneg] at h1 ⊢
        obtain ⟨sent, hsent, he⟩ := Option.map_eq_some_iff.mp h1
        obtain ⟨bufs, hbufs, rfl⟩ := Option.map_eq_some_iff.mp hsent
        rw [hbufs]
        refine (sends_alone bufs go_place).trans fun d' hs hp hh => hnext d' ?_ hp hh
        rw [hs, ← he]
        rfl
    · rw [if_neg hhit]
      rw [forwardStep_skips hhit] at h1
      exact hnext _ (Option.some.inj h1) go_place rfl

/-- A copy that is enqueued is forwarded, one that is not is freed. -/
theorem stores_alone {r : Route} {b : Binding} {clone : Message} (ht : d.threads t = .storing r b clone)
    {e : Nat × Queue Message} (he : queueTryEnqueue (d.server.queues b.queue) (some clone) = e) {n : Nat}
    (h : (if e.1 ≠ 0 then
        (forwardMessageToConsumers e.2.name clone
          { d.server with queues := Function.update d.server.queues b.queue e.2 }).map fun s => (s, r.routed + 1)
      else some ({ d.server with
        heap := messageFree clone d.server.heap
        queues := Function.update d.server.queues b.queue e.2 }, r.routed)) = some (s', n)) :
    Comes t d s' (.routing { r with routed := n }) d.holder := by
  refine comes_step ?_
  simp only [threadStep, ht, he]
  by_cases hstored : e.1 ≠ 0
  · rw [if_pos hstored] at h ⊢
    obtain ⟨s1, hforward, hs⟩ := Option.map_eq_some_iff.mp h
    cases hs
    unfold afterStore
    cases hname : e.2.name with
    | none =>
      rw [hname] at hforward
      cases hforward
      exact comes_here rfl (Function.update_self ..) rfl
    | some name =>
      rw [hname] at hforward
      exact forwards_alone _ (Function.update_self ..) rfl hforward
  · rw [if_neg hstored] at h ⊢
    cases h
    exact comes_here rfl go_place rfl

/-- The loop of `broker_route_message`, and what follows it under the mutex. -/
theorem routes_alone (bs : List Binding) {r : Route} {routed : Nat} (ht : d.threads t = .routing r) (hbs : r.left = bs)
    (h : routeLoop r.exchange r.message bs d.server r.routed = some (s', routed)) :
    Comes t d (afterRouting r.message s' routed) (.returning r.message routed) none := by
  induction bs generalizing r d with
  | nil =>
    cases h
    have hplace : (threadStep d t).threads t = .returning r.message r.routed := by
      simp only [threadStep, ht, hbs]
      exact go_place
    exact comes_step (comes_here (by simp only [threadStep, ht, hbs]; rfl) hplace (by simp only [threadStep, ht, hbs]))
  | cons b bs ih =>
    have hnext : ∀ {s1 : Server} {n : Nat}, routeLoop r.exchange r.message bs s1 n = some (s', routed) →
        ∀ d', d'.server = s1 → d'.threads t = .routing { r with left := bs, routed := n } →
          Comes t d' (afterRouting r.message s' routed) (.returning r.message routed) none := by
      intro s1 n hloop d' hs hp
      exact ih (r := { r with left := bs, routed := n }) hp rfl (by rw [hs]; exact hloop)
    rw [routeLoop] at h
    refine comes_step ?_
    simp only [threadStep, ht, hbs]
    cases hm : bindingMatches d.server r.exchange r.message.routingKey b with
    | none =>
      rw [hm] at h
      cases h
    | some hit =>
    rw [hm] at h
    cases hit with
    | false => exact hnext h _ rfl go_place
    | true =>
      obtain ⟨⟨s1, n⟩, hto, hloop⟩ := Option.bind_eq_some_iff.mp h
      unfold routeTo at hto
      dsimp only
      cases hc : messageClone r.message d.server.heap with
      | mk clone heap =>
      rw [hc] at hto
      cases clone with
      | none =>
        cases hto
        exact hnext hloop _ rfl go_place
      | some clone =>
        have hstore := stores_alone (d := d.go t { d.server with heap } (.storing { r with left := bs } b clone)) go_place rfl hto
        exact hstore.trans fun d' hs hp _ => hnext hloop d' hs hp

theorem route_loop (exchange : Nat) (message : Message) (s : Server) :
    brokerRouteMessage exchange message s =
      (routeLoop exchange message s.broker.bindings s 0).map fun r => (r.2, afterRouting message r.1 r.2) := by
  rw [brokerRouteMessage]
  congr 1
  funext r
  obtain ⟨s1, routed⟩ := r
  unfold afterRouting
  dsimp only
  by_cases h0 : routed = 0
  · rw [if_pos h0, h0]
    rfl
  · rw [if_neg h0]
    split
    · rfl
    · rfl

/-- With the mutex free, a thread that publishes with no other in between does what
    `brokerPublish` does. -/
theorem publish_alone {exchange val : Nat} {m : Message} (ht : d.threads t = .idle) (hfree : d.holder = none)
    (h : brokerPublish exchange m d.server = some (val, s')) : ∃ k,
      (Run.run dispatchStep d (.publish t exchange m :: List.replicate k (.step t))).server = s' ∧
      (Run.run dispatchStep d (.publish t exchange m :: List.replicate k (.step t))).threads t = .idle ∧
      (Run.run dispatchStep d (.publish t exchange m :: List.replicate k (.step t))).holder = none := by
  show Comes t (publishBegins d t exchange m) s' .idle none
  unfold brokerPublish at h
  simp only [publishBegins, ht]
  cases hc : messageClone m d.server.heap with
  | mk c heap =>
  rw [hc] at h
  cases c with
  | none =>
    cases h
    exact comes_here rfl go_place hfree
  | some msgClone =>
    simp only [route_loop, Option.map_map] at h
    obtain ⟨⟨s1, routed⟩, hloop, he⟩ := Option.map_eq_some_iff.mp h
    have hroute : ∀ d', d'.server = { d.server with heap } →
        d'.threads t = .routing ⟨exchange, msgClone, d.server.broker.bindings, 0⟩ →
          Comes t d' (afterRouting msgClone s1 routed) (.returning msgClone routed) none := fun d' hs hp =>
      routes_alone _ hp rfl (by rw [hs]; exact hloop)
    have henters : (d.go t { d.server with heap } (.entering exchange msgClone)).holder = none := hfree
    refine comes_step ?_
    simp only [threadStep, go_place, henters, if_true]
    refine (hroute _ rfl (Function.update_self ..)).trans fun d' hs hp hh => comes_step ?_
    simp only [threadStep, hp, hs]
    refine comes_here ?_ go_place hh
    dsimp only [Function.comp_apply] at he
    split at he
    · rename_i h0
      rw [if_pos h0]
      exact (Prod.mk.inj he).2
    · rename_i h0
      rw [if_neg h0]
      exact (Prod.mk.inj he).2

end Alone

end RabbitMQ.Core
