/-
  RabbitMQ.Core.Producers — what becomes of a message that a handler thread publishes, from
  its `broker_publish` to the sockets of the consumers.

  The run is that of `Core.Dispatch`. `Traced` goes with it and remembers what each thread
  published, and for each time the mutex was taken to route a message (a `Turn`) which of the
  published messages it was and what it left in the queues.

  (1) The log is the turns one after another. A turn leaves copies of one published message,
      in queues of matching bindings in the order of the bindings, and the turns of a thread
      are in the order of its calls (`published_in_turn`).
  (2) If no request for memory is refused, no thread is stuck, each message with both strings
      has its turn, and a queue that still has room has a copy for every binding of it that
      matches (`nothing_lost_with_room`).
  (3) A client that registered once, on a socket that takes what it is given, reads of each
      turn the published message, once for each named copy in a queue of its
      (`consumers_read_what_was_published`).
-/

import RabbitMQ.Core.Dispatch
import RabbitMQ.Core.Relay

namespace RabbitMQ.Core

open Lib

/-! ## The record -/

/-- One time that a thread held the mutex to route: which of its messages, and what it stored. -/
structure Turn where
  thread : Nat
  number : Nat
  copies : List (Nat × Message)

def Turn.store (u : Turn) (copies : List (Nat × Message)) : Turn := { u with copies := u.copies ++ copies }

structure Traced where
  dispatch : Dispatch
  /-- The calls of `broker_publish` of each thread. -/
  published : Nat → List (Nat × Message)
  finished : List Turn
  current : Option Turn

namespace Traced

def turns (a : Traced) : List Turn := a.finished ++ a.current.toList

/-- Which of its messages thread `t` has had a turn for. -/
def numbers (a : Traced) (t : Nat) : List Nat := (a.turns.filter (·.thread = t)).map (·.number)

/-- A step of thread `t` led to `d`. -/
def follow (a : Traced) (t : Nat) (d : Dispatch) : Traced :=
  let turn :=
    match a.current with
    | none => if d.holder = some t then some ⟨t, (a.published t).length - 1, []⟩ else none
    | some u => some (u.store (d.log.drop a.dispatch.log.length))
  if d.holder = none then { a with dispatch := d, finished := a.finished ++ turn.toList, current := none }
  else { a with dispatch := d, current := turn }

end Traced

def Looping : Place → Prop
  | .idle => True
  | _ => False

instance (p : Place) : Decidable (Looping p) := by
  unfold Looping
  split
  · exact isTrue trivial
  · exact isFalse id

def tracedStep (a : Traced) (e : DispatchEvent) : Traced :=
  let d := dispatchStep a.dispatch e
  match e with
  | .publish t exchange message =>
    if Looping (a.dispatch.threads t) then
      { a with dispatch := d, published := Function.update a.published t (a.published t ++ [(exchange, message)]) }
    else { a with dispatch := d }
  | .step t => a.follow t d
  | .timeouts _ => { a with dispatch := d }

def Node.traced (n : Node) : Traced := ⟨n.dispatching, fun _ => [], [], none⟩

/-- The record changes nothing in the run. -/
theorem traced_dispatch (es : List DispatchEvent) (a : Traced) :
    (Run.run tracedStep a es).dispatch = Run.run dispatchStep a.dispatch es := by
  induction es generalizing a with
  | nil => rfl
  | cons e es ih =>
    rw [Run.run_cons, Run.run_cons, ih]
    congr 1
    cases e with
    | publish t exchange message =>
      simp only [tracedStep]
      split
      · rfl
      · rfl
    | step t =>
      simp only [tracedStep, Traced.follow]
      split
      · rfl
      · rfl
    | timeouts now => rfl

/-! ## One step -/

/-- Nothing here writes the tables or makes room in a queue. -/
structure Static (s s' : Server) : Prop where
  broker : s'.broker = s.broker
  exchanges : s'.exchanges = s.exchanges
  granted : s.heap.AllGranted → s'.heap.AllGranted
  full : ∀ q, (s.queues q).size = (s.queues q).capacity → (s'.queues q).size = (s'.queues q).capacity

theorem Static.refl (s : Server) : Static s s := ⟨rfl, rfl, id, fun _ => id⟩

theorem Static.trans {s s' s'' : Server} (h : Static s s') (h' : Static s' s'') : Static s s'' :=
  ⟨h'.broker.trans h.broker, h'.exchanges.trans h.exchanges, fun hg => h'.granted (h.granted hg),
    fun q hf => h'.full q (h.full q hf)⟩

theorem static_heap {s : Server} {heap : Heap} (hg : s.heap.AllGranted → heap.AllGranted) : Static s { s with heap } :=
  ⟨rfl, rfl, hg, fun _ => id⟩

theorem static_outlets (s : Server) (outlets : Int → Outlet) : Static s { s with outlets } := ⟨rfl, rfl, id, fun _ => id⟩

/-- A pass puts nothing in a queue that is full, and takes nothing out of any ring. -/
theorem timeouts_full (q : Queue Message) (now timeout : Int) (hfull : q.size = q.capacity) :
    (queueProcessTimeouts q now timeout).1.size = (queueProcessTimeouts q now timeout).1.capacity := by
  have hstep : ∀ (p : Pass Message) (i : Nat), p.q.size = p.q.capacity →
      (timeoutStep now timeout p i).q.size = (timeoutStep now timeout p i).q.capacity := by
    intro p i hp
    unfold timeoutStep
    split
    · have hroom : ¬ (markAcknowledged p.q i).size < (markAcknowledged p.q i).capacity := by
        show ¬ p.q.size < p.q.capacity
        rw [hp]
        exact UInt64.lt_irrefl _
      simp only [if_neg hroom]
      exact hp
    · exact hp
  have hpass : ∀ (cells : List Nat) (p : Pass Message), p.q.size = p.q.capacity →
      (cells.foldl (timeoutStep now timeout) p).q.size = (cells.foldl (timeoutStep now timeout) p).q.capacity := by
    intro cells
    induction cells with
    | nil => exact fun _ => id
    | cons j cells ih => exact fun p hp => ih _ (hstep p j hp)
  unfold queueProcessTimeouts
  split
  · exact hfull
  · dsimp only
    split
    · exact hpass _ _ hfull
    · exact hpass _ _ hfull

theorem static_timeouts (now : Int) (n : Node) : Static n.server (processTimeouts now n).server := by
  have hfrees : ∀ (ms : List Message) (h : Heap), h.AllGranted → (ms.foldl (fun h m => messageFree m h) h).AllGranted := by
    intro ms
    induction ms with
    | nil => exact fun _ => id
    | cons m ms ih => exact fun h hg => ih _ hg
  have hall : ∀ (qs : List Nat) (s : Server), Static s (qs.foldl (processQueueTimeouts now) s) := by
    intro qs
    induction qs with
    | nil => exact Static.refl
    | cons q qs ih =>
      intro s
      have hone : Static s (processQueueTimeouts now s q) := by
        refine ⟨rfl, rfl, hfrees _ _, fun q' hfull => ?_⟩
        by_cases hq : q' = q
        · subst hq
          simp only [processQueueTimeouts, Function.update_self]
          exact timeouts_full _ _ _ hfull
        · simp only [processQueueTimeouts, Function.update_of_ne hq]
          exact hfull
      exact hone.trans (ih _)
  exact hall n.queueTable n.server

theorem static_store {s : Server} {q : Nat} (clone : Message) (hroom : (s.queues q).size ≠ (s.queues q).capacity) :
    Static s { s with queues := Function.update s.queues q (pushTail (s.queues q) clone) } := by
  refine ⟨rfl, rfl, id, fun q' hfull => ?_⟩
  by_cases hq : q' = q
  · subst hq
    exact absurd hfull hroom
  · simp only [Function.update_of_ne hq]
    exact hfull

/-- The locals of `broker_route_message`, in it or in what it calls. -/
def routeOf : Place → Option Route
  | .routing r | .storing r _ _ | .forwarding r _ | .sending r _ _ _ => some r
  | .idle | .entering _ _ | .returning _ _ | .stuck => none

/-- The binding that is being served. -/
def pending : Place → List Binding
  | .storing _ b _ => [b]
  | .idle | .entering _ _ | .routing _ | .forwarding _ _ | .sending _ _ _ _ | .returning _ _ | .stuck => []

/-- The clone a thread has made for a queue. -/
def atHand : Place → List Message
  | .storing _ _ clone => [clone]
  | .forwarding _ f | .sending _ f _ _ => [f.clone]
  | .idle | .entering _ _ | .routing _ | .returning _ _ | .stuck => []

/-- In the loop, with no binding being served. -/
def Forwarding (r : Route) (p : Place) : Prop := routeOf p = some r ∧ pending p = []

/-- What a step of thread `t` can do, with the reason of each branch. -/
inductive Steps (d : Dispatch) (t : Nat) : Dispatch → Prop
  | rests : Steps d t d
  | enters (exchange : Nat) (message : Message) (ht : d.threads t = .entering exchange message) (hfree : d.holder = none) :
      Steps d t { d.go t d.server (.routing ⟨exchange, message, d.server.broker.bindings, 0⟩) with holder := some t }
  | leaves (r : Route) (heap : Heap) (hs : d.server.heap.AllGranted → heap.AllGranted) (ht : d.threads t = .routing r)
      (hleft : r.left = []) :
      Steps d t { d.go t { d.server with heap } (.returning r.message r.routed) with holder := none }
  | passes (r : Route) (b : Binding) (bs : List Binding) (heap : Heap) (hs : d.server.heap.AllGranted → heap.AllGranted)
      (ht : d.threads t = .routing r) (hleft : r.left = b :: bs)
      (hmiss : bindingMatches d.server r.exchange r.message.routingKey b = some false ∨
        (messageClone r.message d.server.heap).1 = none) :
      Steps d t (d.go t { d.server with heap } (.routing { r with left := bs }))
  | picks (r : Route) (b : Binding) (bs : List Binding) (clone : Message) (heap : Heap) (ht : d.threads t = .routing r)
      (hleft : r.left = b :: bs) (hmatch : bindingMatches d.server r.exchange r.message.routingKey b = some true)
      (hclone : messageClone r.message d.server.heap = (some clone, heap)) :
      Steps d t (d.go t { d.server with heap } (.storing { r with left := bs } b clone))
  | stores (r : Route) (b : Binding) (clone : Message) (ht : d.threads t = .storing r b clone)
      (hroom : (d.server.queues b.queue).size ≠ (d.server.queues b.queue).capacity) :
      Steps d t { d.go t
          { d.server with queues := Function.update d.server.queues b.queue (pushTail (d.server.queues b.queue) clone) }
          (afterStore r (pushTail (d.server.queues b.queue) clone) clone)
        with log := d.log ++ [(b.queue, clone)] }
  | refuses (r : Route) (b : Binding) (clone : Message) (heap : Heap) (hs : d.server.heap.AllGranted → heap.AllGranted)
      (ht : d.threads t = .storing r b clone) (hfull : (d.server.queues b.queue).size = (d.server.queues b.queue).capacity) :
      Steps d t (d.go t { d.server with heap } (.routing r))
  | forwards (r : Route) (p : Place) (outlets : Int → Outlet) (ht : Forwarding r (d.threads t)) (hp : Forwarding r p)
      (hhand : atHand p ⊆ atHand (d.threads t)) :
      Steps d t (d.go t { d.server with outlets } p)
  | sticks (r : Route) (ht : Forwarding r (d.threads t))
      (hwhy : (∃ b, bindingMatches d.server r.exchange r.message.routingKey b = none) ∨
        ∃ c ∈ atHand (d.threads t), sends c.toFields = none) :
      Steps d t (d.go t d.server .stuck)
  | returns (message : Message) (routed : Nat) (heap : Heap) (hs : d.server.heap.AllGranted → heap.AllGranted)
      (ht : d.threads t = .returning message routed) :
      Steps d t (d.go t { d.server with heap } .idle)

theorem free_granted {h : Heap} (m : Message) (hg : h.AllGranted) : (messageFree m h).AllGranted := hg

theorem threadStep_routing {d : Dispatch} {t : Nat} {r : Route} (ht : d.threads t = .routing r) :
    Steps d t (threadStep d t) := by
  simp only [threadStep, ht]
  cases hleft : r.left with
  | nil =>
    unfold afterRouting
    dsimp only
    split
    · exact .leaves r d.server.heap id ht hleft
    · exact .leaves r _ (free_granted _) ht hleft
  | cons b bs =>
    dsimp only
    cases hm : bindingMatches d.server r.exchange r.message.routingKey b with
    | none => exact .sticks r (by rw [ht]; exact ⟨rfl, rfl⟩) (Or.inl ⟨b, hm⟩)
    | some hit =>
    cases hit with
    | false => exact .passes r b bs d.server.heap id ht hleft (Or.inl hm)
    | true =>
      dsimp only
      cases hc : messageClone r.message d.server.heap with
      | mk clone heap =>
      cases clone with
      | none => exact .passes r b bs heap (clone_granted hc) ht hleft (Or.inr (congrArg Prod.fst hc))
      | some clone => exact .picks r b bs clone heap ht hleft hm hc

theorem threadStep_storing {d : Dispatch} {t : Nat} {r : Route} {b : Binding} {clone : Message}
    (ht : d.threads t = .storing r b clone) : Steps d t (threadStep d t) := by
  simp only [threadStep, ht]
  by_cases hfull : (d.server.queues b.queue).size = (d.server.queues b.queue).capacity
  · have htry : queueTryEnqueue (d.server.queues b.queue) (some clone) = (0, d.server.queues b.queue) := if_pos hfull
    rw [htry, if_neg (not_not_intro rfl), Function.update_eq_self]
    exact .refuses r b clone _ (free_granted clone) ht hfull
  · have htry : queueTryEnqueue (d.server.queues b.queue) (some clone) = (1, pushTail (d.server.queues b.queue) clone) :=
      if_neg hfull
    rw [htry, if_pos one_ne_zero]
    exact .stores r b clone ht hfull

theorem threadStep_forwarding {d : Dispatch} {t : Nat} {r : Route} {f : Forward} (ht : d.threads t = .forwarding r f) :
    Steps d t (threadStep d t) := by
  have hin : Forwarding r (d.threads t) := by rw [ht]; exact ⟨rfl, rfl⟩
  have hhand : atHand (d.threads t) = [f.clone] := by rw [ht]; rfl
  have hgo : ∀ p, Forwarding r p → atHand p ⊆ [f.clone] → Steps d t (d.go t d.server p) := fun p hp hsub =>
    .forwards r p d.server.outlets hin hp (by rw [hhand]; exact hsub)
  simp only [threadStep, ht]
  split
  · exact hgo _ ⟨rfl, rfl⟩ (List.nil_subset _)
  · split
    · split
      · exact hgo _ ⟨rfl, rfl⟩ (List.Subset.refl _)
      · split
        · rename_i hnone
          exact .sticks r hin (Or.inr ⟨f.clone, by rw [hhand]; exact List.mem_singleton_self _, hnone⟩)
        · exact hgo _ ⟨rfl, rfl⟩ (List.Subset.refl _)
    · exact hgo _ ⟨rfl, rfl⟩ (List.Subset.refl _)

theorem threadStep_sending {d : Dispatch} {t : Nat} {r : Route} {f : Forward} {fd : Int} {left : List Bytes}
    (ht : d.threads t = .sending r f fd left) : Steps d t (threadStep d t) := by
  have hin : Forwarding r (d.threads t) := by rw [ht]; exact ⟨rfl, rfl⟩
  have hhand : atHand (d.threads t) = [f.clone] := by rw [ht]; rfl
  have hgo : ∀ p outlets, Forwarding r p → atHand p ⊆ [f.clone] → Steps d t (d.go t { d.server with outlets } p) :=
    fun p outlets hp hsub => .forwards r p outlets hin hp (by rw [hhand]; exact hsub)
  cases left with
  | nil =>
    simp only [threadStep, ht]
    exact hgo _ d.server.outlets ⟨rfl, rfl⟩ (List.Subset.refl _)
  | cons buf left =>
    simp only [threadStep, ht]
    split
    · exact hgo _ _ ⟨rfl, rfl⟩ (List.Subset.refl _)
    · exact hgo _ _ ⟨rfl, rfl⟩ (List.Subset.refl _)

theorem threadStep_steps (d : Dispatch) (t : Nat) : Steps d t (threadStep d t) := by
  cases ht : d.threads t with
  | idle =>
    have hrests : threadStep d t = d := by simp only [threadStep, ht]
    rw [hrests]
    exact .rests
  | stuck =>
    have hrests : threadStep d t = d := by simp only [threadStep, ht]
    rw [hrests]
    exact .rests
  | entering exchange message =>
    simp only [threadStep, ht]
    split
    · rename_i hfree
      exact .enters exchange message ht hfree
    · exact .rests
  | returning message routed =>
    simp only [threadStep, ht]
    split
    · exact .returns message routed _ (free_granted _) ht
    · exact .returns message routed d.server.heap id ht
  | routing r => exact threadStep_routing ht
  | storing r b clone => exact threadStep_storing ht
  | forwarding r f => exact threadStep_forwarding ht
  | sending r f fd left => exact threadStep_sending ht

/-! ## What a turn leaves -/

/-- The queues of the bindings among `bs` that match. -/
def matched (s : Server) (exchange : Nat) (routingKey : Option CString) (bs : List Binding) : List Nat :=
  (bs.filter (Matches s exchange routingKey ·)).map (·.queue)

theorem matched_append (s : Server) (exchange : Nat) (routingKey : Option CString) (as bs : List Binding) :
    matched s exchange routingKey (as ++ bs) = matched s exchange routingKey as ++ matched s exchange routingKey bs := by
  unfold matched
  rw [List.filter_append, List.map_append]

/-- `c` is a clone of `m`, or a clone of a clone. Only a refused request leaves a string out. -/
structure Clones (start : Server) (c m : Message) : Prop where
  copy : CopyOf c.toFields m.toFields
  named : start.heap.AllGranted → Named c.toFields

def Roomy (q : Queue Message) : Prop := q.size ≠ q.capacity

/-- The turn `u` was for `m`, published to `exchange`, and has been through the bindings `tried`. -/
structure Serving (start now : Server) (published : Nat → List (Nat × Message)) (u : Turn) (exchange : Nat) (m : Message)
    (tried : List Binding) : Prop where
  call : (published u.thread)[u.number]? = some (exchange, m)
  named : Named m.toFields
  clones : ∀ c ∈ u.copies, Clones start c.2 m
  stored : (u.copies.map (·.1)).Sublist (matched start exchange m.routingKey tried)
  all : start.heap.AllGranted → ∀ q, Roomy (now.queues q) →
    (u.copies.map (·.1)).count q = (matched start exchange m.routingKey tried).count q

section Serving

variable {start now now' : Server} {published : Nat → List (Nat × Message)} {u : Turn} {exchange : Nat} {m : Message}
  {tried : List Binding}

theorem Serving.later (h : Serving start now published u exchange m tried) (hs : Static now now') :
    Serving start now' published u exchange m tried :=
  ⟨h.call, h.named, h.clones, h.stored, fun hg q hq => h.all hg q fun hfull => hq (hs.full q hfull)⟩

theorem Serving.called (h : Serving start now published u exchange m tried) (t : Nat) (call : Nat × Message) :
    Serving start now (Function.update published t (published t ++ [call])) u exchange m tried := by
  refine ⟨?_, h.named, h.clones, h.stored, h.all⟩
  by_cases ht : u.thread = t
  · have hcall := h.call
    rw [ht] at hcall
    rw [ht, Function.update_self]
    exact List.getElem?_append_left (List.getElem?_eq_some_iff.mp hcall).1 ▸ hcall
  · rw [Function.update_of_ne ht]
    exact h.call

/-- A binding that does not match. -/
theorem Serving.misses (h : Serving start now published u exchange m tried) {b : Binding}
    (hmiss : ¬ Matches start exchange m.routingKey b) : Serving start now published u exchange m (tried ++ [b]) := by
  have hsame : matched start exchange m.routingKey (tried ++ [b]) = matched start exchange m.routingKey tried := by
    rw [matched_append]
    simp [matched, hmiss]
  refine ⟨h.call, h.named, h.clones, ?_, ?_⟩
  · rw [hsame]
    exact h.stored
  · rw [hsame]
    exact h.all

/-- A binding that may match, whose queue got nothing: its clone was refused, or it is full. -/
theorem Serving.drops (h : Serving start now published u exchange m tried) {b : Binding}
    (hwhy : start.heap.AllGranted → ¬ Roomy (now.queues b.queue)) : Serving start now published u exchange m (tried ++ [b]) := by
  refine ⟨h.call, h.named, h.clones, ?_, ?_⟩
  · rw [matched_append]
    exact h.stored.trans (List.sublist_append_left ..)
  · intro hg q hq
    have hne : b.queue ≠ q := by
      intro he
      rw [← he] at hq
      exact hwhy hg hq
    have hnone : (matched start exchange m.routingKey [b]).count q = 0 := by
      refine List.count_eq_zero_of_not_mem fun hmem => ?_
      obtain ⟨b', hb', he⟩ := List.mem_map.mp hmem
      rw [List.mem_singleton.mp (List.mem_of_mem_filter hb')] at he
      exact hne he
    rw [matched_append, List.count_append, hnone]
    exact h.all hg q hq

theorem Serving.stores (h : Serving start now published u exchange m tried) {b : Binding} {clone : Message}
    (hmatch : Matches start exchange m.routingKey b) (hclone : Clones start clone m) :
    Serving start now published (u.store [(b.queue, clone)]) exchange m (tried ++ [b]) := by
  have hone : matched start exchange m.routingKey [b] = [b.queue] := by simp [matched, hmatch]
  refine ⟨h.call, h.named, ?_, ?_, ?_⟩
  · intro c hc
    rcases List.mem_append.mp hc with hc | hc
    · exact h.clones c hc
    · rw [List.mem_singleton.mp hc]
      exact hclone
  · show ((u.copies ++ [(b.queue, clone)]).map (·.1)).Sublist _
    rw [matched_append, hone, List.map_append]
    exact h.stored.append (List.Sublist.refl _)
  · intro hg q hq
    show ((u.copies ++ [(b.queue, clone)]).map (·.1)).count q = _
    rw [matched_append, hone, List.map_append, List.count_append, List.count_append, h.all hg q hq]
    rfl

end Serving

theorem CopyOf.trans {a b c : Fields} (h : CopyOf a b) (h' : CopyOf b c) : CopyOf a c := by
  refine ⟨?_, ?_, h.body.trans h'.body, h.bodySize.trans h'.bodySize, h.priority.trans h'.priority,
    h.expiration.trans h'.expiration, h.persistent.trans h'.persistent⟩
  · rcases h.exchange with hn | he
    · exact Or.inl hn
    · rw [he]
      exact h'.exchange
  · rcases h.routingKey with hn | hk
    · exact Or.inl hn
    · rw [hk]
      exact h'.routingKey

/-- A clone made while the server is `s`. -/
theorem clone_clones {start s : Server} (hs : Static start s) {m c : Message} {heap : Heap} (hm : Sized m.toFields)
    (hc : messageClone m s.heap = (some c, heap)) : Named m.toFields ∧ Clones start c m := by
  obtain ⟨hn, hcopy⟩ := clone_copies hm hc
  refine ⟨hn, hcopy, fun hg => ?_⟩
  obtain ⟨c', he, hfields⟩ := clone_whole hm hn (hs.granted hg)
  rw [hc] at he
  cases he
  rw [hfields]
  exact hn

theorem Clones.trans {start : Server} {a b c : Message} (h : Clones start a b) (h' : Clones start b c) : Clones start a c :=
  ⟨h.copy.trans h'.copy, h.named⟩

theorem clone_made {start s : Server} (hs : Static start s) {m : Message} (hm : Sized m.toFields) (hn : Named m.toFields)
    (hnone : (messageClone m s.heap).1 = none) : ¬ start.heap.AllGranted := by
  intro hg
  obtain ⟨c, he, -⟩ := clone_whole hm hn (hs.granted hg)
  rw [hnone] at he
  cases he

/-! ## What every step keeps -/

/-- Thread `t`, at place `p`, has the mutex and routes `m`, published to `exchange`. -/
structure Working (start : Server) (a : Traced) (t : Nat) (p : Place) (u : Turn) (exchange : Nat) (m : Message)
    (tried : List Binding) : Prop where
  current : a.current = some u
  thread : u.thread = t
  sized : Sized m.toFields
  serving : Serving start a.dispatch.server a.published u exchange m tried
  behind : tried <+: start.broker.bindings
  route : ∀ r, routeOf p = some r →
    r.exchange = exchange ∧ Clones start r.message m ∧ tried ++ pending p ++ r.left = start.broker.bindings
  matching : ∀ b ∈ pending p, Matches start exchange m.routingKey b
  hand : ∀ c ∈ atHand p, Clones start c m

/-- The call thread `t` waits with for the mutex is its last. -/
def Awaits (start : Server) (a : Traced) (t exchange : Nat) (message : Message) : Prop :=
  ∃ m, (a.published t)[(a.published t).length - 1]? = some (exchange, m) ∧ Sized m.toFields ∧ Named m.toFields ∧
    Clones start message m

/-- The message a thread waits with, by number, with `n` published. -/
def awaiting (n : Nat) : Place → List Nat
  | .entering _ _ => [n - 1]
  | .idle | .routing _ | .storing _ _ _ | .forwarding _ _ | .sending _ _ _ _ | .returning _ _ | .stuck => []

def Traced.waiting (a : Traced) (t : Nat) : List Nat := awaiting (a.published t).length (a.dispatch.threads t)

/-- Message `k` of thread `t` has both its strings. -/
def Traced.named (a : Traced) (t k : Nat) : Bool := (a.published t)[k]?.any fun call => Named call.2.toFields

structure Traces (start : Server) (a : Traced) : Prop where
  lock : Lock.Excludes Inside a.dispatch.holder a.dispatch.threads
  static : Static start a.dispatch.server
  log : a.dispatch.log = a.turns.flatMap (·.copies)
  free : a.dispatch.holder = none → a.current = none
  finished : ∀ u ∈ a.finished, ∃ exchange m, Serving start a.dispatch.server a.published u exchange m start.broker.bindings
  awaits : ∀ t exchange message, a.dispatch.threads t = .entering exchange message → Awaits start a t exchange message
  works : ∀ t, Inside (a.dispatch.threads t) →
    ∃ u exchange m tried, Working start a t (a.dispatch.threads t) u exchange m tried
  order : ∀ t, (a.numbers t ++ a.waiting t).Sublist (List.range (a.published t).length)
  every : start.heap.AllGranted → ∀ t, a.numbers t ++ a.waiting t = (List.range (a.published t).length).filter (a.named t)
  returns : start.heap.AllGranted → ∀ t, a.dispatch.threads t ≠ .stuck

section Step

variable {start s : Server} {a : Traced} {t : Nat} {p : Place} {u : Turn} {exchange : Nat} {m : Message} {tried : List Binding}

/-- What thread `t` works at outlasts what others do. -/
theorem Working.later {a' : Traced} (h : Working start a t p u exchange m tried) (hc : a'.current = a.current)
    (hs : Static a.dispatch.server a'.dispatch.server)
    (hp : ∀ now, Serving start now a.published u exchange m tried → Serving start now a'.published u exchange m tried) :
    Working start a' t p u exchange m tried :=
  ⟨hc.trans h.current, h.thread, h.sized, (hp _ h.serving).later hs, h.behind, h.route, h.matching, h.hand⟩

theorem Traces.current_none (h : Traces start a) : a.current = none ↔ a.dispatch.holder = none := by
  refine ⟨fun hc => ?_, h.free⟩
  cases hh : a.dispatch.holder with
  | none => rfl
  | some t =>
    obtain ⟨u, exchange, m, tried, hw⟩ := h.works t ((h.lock t).mpr hh)
    rw [hw.current] at hc
    cases hc

/-- A step that neither takes nor gives back the mutex, and stores nothing. -/
theorem Traces.follow_same (h : Traces start a) (t : Nat) {d : Dispatch} (hh : d.holder = a.dispatch.holder)
    (hl : d.log = a.dispatch.log) : a.follow t d = { a with dispatch := d } := by
  obtain ⟨d₀, published, finished, current⟩ := a
  have hiff := h.current_none
  unfold Traced.follow
  cases current with
  | none =>
    have hnone : d.holder = none := hh.trans (hiff.mp rfl)
    simp [hnone]
  | some u =>
    have hsome : d.holder ≠ none := by
      rw [hh]
      exact fun hn => Option.some_ne_none u (hiff.mpr hn)
    have hnew : d.log.drop d₀.log.length = [] := by
      rw [hl]
      exact List.drop_length
    simp only [hnew, Turn.store, List.append_nil, if_neg hsome]

theorem awaiting_none (n : Nat) (h : ∀ exchange message, p ≠ .entering exchange message) : awaiting n p = [] := by
  cases p with
  | entering exchange message => exact absurd rfl (h exchange message)
  | _ => rfl

/-- A step of thread `t` to place `p`: what is to be shown of it, for the rest to be as it was. -/
theorem Traces.step {a' : Traced} (h : Traces start a) (hthreads : a'.dispatch.threads = Function.update a.dispatch.threads t p)
    (hpublished : a'.published = a.published) (hs : Static a.dispatch.server a'.dispatch.server)
    (hlock : Lock.Excludes Inside a'.dispatch.holder a'.dispatch.threads)
    (hlog : a'.dispatch.log = a'.turns.flatMap (·.copies)) (hfree : a'.dispatch.holder = none → a'.current = none)
    (hfinished : ∀ u ∈ a'.finished, ∃ exchange m, Serving start a'.dispatch.server a'.published u exchange m start.broker.bindings)
    (hothers : ∀ t' ≠ t, Inside (a.dispatch.threads t') → a'.current = a.current)
    (hnow : ∀ exchange message, p ≠ .entering exchange message)
    (hworks : Inside p → ∃ u exchange m tried, Working start a' t p u exchange m tried)
    (hsame : ∀ t', a'.numbers t' ++ a'.waiting t' = a.numbers t' ++ a.waiting t')
    (hstuck : start.heap.AllGranted → p ≠ .stuck) : Traces start a' := by
  have hhere : a'.dispatch.threads t = p := by rw [hthreads, Function.update_self]
  have hthere : ∀ t' ≠ t, a'.dispatch.threads t' = a.dispatch.threads t' := by
    intro t' hne
    rw [hthreads, Function.update_of_ne hne]
  refine ⟨hlock, h.static.trans hs, hlog, hfree, hfinished, ?_, ?_, ?_, ?_, ?_⟩
  · intro t' exchange message ht'
    by_cases he : t' = t
    · rw [he, hhere] at ht'
      exact absurd ht' (hnow exchange message)
    · rw [hthere t' he] at ht'
      rw [Awaits, hpublished]
      exact h.awaits t' exchange message ht'
  · intro t' hin
    by_cases he : t' = t
    · rw [he, hhere] at hin ⊢
      exact hworks hin
    · rw [hthere t' he] at hin ⊢
      obtain ⟨u, exchange, m, tried, hw⟩ := h.works t' hin
      exact ⟨u, exchange, m, tried, hw.later (hothers t' he hin) hs fun _ hserving => by rw [hpublished]; exact hserving⟩
  · intro t'
    rw [hsame, hpublished]
    exact h.order t'
  · intro hg t'
    have hnamed : a'.named t' = a.named t' := by
      unfold Traced.named
      rw [hpublished]
    rw [hsame, hpublished, hnamed]
    exact h.every hg t'
  · intro hg t'
    by_cases he : t' = t
    · rw [he, hhere]
      exact hstuck hg
    · rw [hthere t' he]
      exact h.returns hg t'

/-- A step of a thread that stays on its side of the mutex. -/
theorem Traces.moves (h : Traces start a) (hs : Static a.dispatch.server s) (hin : Inside p ↔ Inside (a.dispatch.threads t))
    (hwas : ∀ exchange message, a.dispatch.threads t ≠ .entering exchange message)
    (hnow : ∀ exchange message, p ≠ .entering exchange message)
    (hworks : Inside p → ∀ u exchange m tried, Working start a t (a.dispatch.threads t) u exchange m tried →
      ∃ tried', Working start { a with dispatch := a.dispatch.go t s p } t p u exchange m tried')
    (hstuck : start.heap.AllGranted → p ≠ .stuck) : Traces start (a.follow t (a.dispatch.go t s p)) := by
  have hfollow : a.follow t (a.dispatch.go t s p) = { a with dispatch := a.dispatch.go t s p } := h.follow_same t rfl rfl
  rw [hfollow]
  refine h.step rfl rfl hs (h.lock.stay hin) h.log h.free ?_ (fun _ _ _ => rfl) hnow ?_ ?_ hstuck
  · intro u hu
    obtain ⟨exchange, m, hserving⟩ := h.finished u hu
    exact ⟨exchange, m, hserving.later hs⟩
  · intro hp
    obtain ⟨u, exchange, m, tried, hw⟩ := h.works t (hin.mp hp)
    obtain ⟨tried', hw'⟩ := hworks hp u exchange m tried hw
    exact ⟨u, exchange, m, tried', hw'⟩
  · intro t'
    refine congrArg (a.numbers t' ++ ·) ?_
    show awaiting _ (Function.update a.dispatch.threads t p t') = awaiting _ _
    by_cases he : t' = t
    · rw [he, Function.update_self, awaiting_none _ hnow, awaiting_none _ hwas]
    · rw [Function.update_of_ne he]

/-- Whether a binding matches the clone being routed, and whether it matches the message. -/
theorem Clones.matches_of {c : Message} (h : Clones start c m) {b : Binding} (hm : Matches start exchange c.routingKey b) :
    Matches start exchange m.routingKey b := by
  rcases h.copy.routingKey with hn | hk
  · exact matches_null (hn ▸ hm)
  · exact hk ▸ hm

theorem Clones.matches_iff {c : Message} (h : Clones start c m) (hg : start.heap.AllGranted) {b : Binding} :
    Matches start exchange c.routingKey b ↔ Matches start exchange m.routingKey b := by
  rw [congrArg Fields.routingKey (h.copy.eq (h.named hg))]

theorem Working.passes (h : Working start a t (a.dispatch.threads t) u exchange m tried) (hstart : Static start a.dispatch.server)
    {r : Route} {b : Binding} {bs : List Binding} {heap : Heap} (hs : a.dispatch.server.heap.AllGranted → heap.AllGranted)
    (ht : a.dispatch.threads t = .routing r) (hleft : r.left = b :: bs)
    (hmiss : bindingMatches a.dispatch.server r.exchange r.message.routingKey b = some false ∨
      (messageClone r.message a.dispatch.server.heap).1 = none) :
    Working start { a with dispatch := a.dispatch.go t { a.dispatch.server with heap } (.routing { r with left := bs }) } t
      (.routing { r with left := bs }) u exchange m (tried ++ [b]) := by
  obtain ⟨he, hclone, hsplit⟩ := h.route r (by rw [ht]; rfl)
  rw [ht, pending, List.append_nil, hleft] at hsplit
  have hsplit' : tried ++ [b] ++ bs = start.broker.bindings := by simpa using hsplit
  have hserving := h.serving.later (static_heap (s := a.dispatch.server) hs)
  refine ⟨h.current, h.thread, h.sized, ?_, ⟨bs, hsplit'⟩, ?_, ?_, ?_⟩
  · by_cases hb : Matches start exchange m.routingKey b
    · refine hserving.drops fun hg => ?_
      rcases hmiss with hno | hnone
      · rw [← hclone.matches_iff hg, ← bindingMatches_iff, ← bindingMatches_congr hstart.exchanges, ← he, hno] at hb
        cases hb
      · exact absurd hg (clone_made hstart (hclone.copy.sized h.sized) (hclone.named hg) hnone)
    · exact hserving.misses hb
  · intro r' hr
    cases hr
    exact ⟨he, hclone, by rw [pending, List.append_nil]; exact hsplit'⟩
  · exact fun _ hb => absurd hb (List.not_mem_nil)
  · exact fun _ hc => absurd hc (List.not_mem_nil)

theorem Working.picks (h : Working start a t (a.dispatch.threads t) u exchange m tried) (hstart : Static start a.dispatch.server)
    {r : Route} {b : Binding} {bs : List Binding} {clone : Message} {heap : Heap} (ht : a.dispatch.threads t = .routing r)
    (hleft : r.left = b :: bs) (hmatch : bindingMatches a.dispatch.server r.exchange r.message.routingKey b = some true)
    (hc : messageClone r.message a.dispatch.server.heap = (some clone, heap)) :
    Working start { a with dispatch := a.dispatch.go t { a.dispatch.server with heap } (.storing { r with left := bs } b clone) } t
      (.storing { r with left := bs } b clone) u exchange m tried := by
  obtain ⟨he, hclone, hsplit⟩ := h.route r (by rw [ht]; rfl)
  rw [ht, pending, List.append_nil, hleft] at hsplit
  refine ⟨h.current, h.thread, h.sized, h.serving.later (static_heap (clone_granted hc)), h.behind, ?_, ?_, ?_⟩
  · intro r' hr
    cases hr
    exact ⟨he, hclone, by simpa [pending] using hsplit⟩
  · intro b' hb
    rw [pending, List.mem_singleton] at hb
    rw [bindingMatches_congr hstart.exchanges, he, bindingMatches_iff] at hmatch
    rw [hb]
    exact hclone.matches_of hmatch
  · intro c hhand
    rw [atHand, List.mem_singleton] at hhand
    rw [hhand]
    exact (clone_clones hstart (hclone.copy.sized h.sized) hc).2.trans hclone

theorem Working.refuses (h : Working start a t (a.dispatch.threads t) u exchange m tried) {r : Route} {b : Binding}
    {clone : Message} {heap : Heap} (hs : a.dispatch.server.heap.AllGranted → heap.AllGranted)
    (ht : a.dispatch.threads t = .storing r b clone)
    (hfull : (a.dispatch.server.queues b.queue).size = (a.dispatch.server.queues b.queue).capacity) :
    Working start { a with dispatch := a.dispatch.go t { a.dispatch.server with heap } (.routing r) } t (.routing r)
      u exchange m (tried ++ [b]) := by
  obtain ⟨he, hclone, hsplit⟩ := h.route r (by rw [ht]; rfl)
  rw [ht, pending] at hsplit
  refine ⟨h.current, h.thread, h.sized, ?_, ⟨r.left, hsplit⟩, ?_, ?_, ?_⟩
  · exact (h.serving.later (static_heap hs)).drops fun _ => not_not_intro hfull
  · intro r' hr
    cases hr
    exact ⟨he, hclone, by rw [pending, List.append_nil]; exact hsplit⟩
  · exact fun _ hb => absurd hb (List.not_mem_nil)
  · exact fun _ hc => absurd hc (List.not_mem_nil)

theorem Working.forwards (h : Working start a t (a.dispatch.threads t) u exchange m tried) {r : Route} {outlets : Int → Outlet}
    (ht : Forwarding r (a.dispatch.threads t)) (hp : Forwarding r p) (hhand : atHand p ⊆ atHand (a.dispatch.threads t)) :
    Working start { a with dispatch := a.dispatch.go t { a.dispatch.server with outlets } p } t p u exchange m tried := by
  obtain ⟨he, hclone, hsplit⟩ := h.route r ht.1
  rw [ht.2] at hsplit
  refine ⟨h.current, h.thread, h.sized, h.serving.later (static_outlets _ outlets), h.behind, ?_, ?_, ?_⟩
  · intro r' hr
    rw [hp.1] at hr
    cases hr
    exact ⟨he, hclone, by rw [hp.2]; exact hsplit⟩
  · intro b hb
    rw [hp.2] at hb
    cases hb
  · exact fun c hc => h.hand c (hhand hc)

theorem Working.sticks (h : Working start a t (a.dispatch.threads t) u exchange m tried) :
    Working start { a with dispatch := a.dispatch.go t a.dispatch.server .stuck } t .stuck u exchange m tried := by
  refine ⟨h.current, h.thread, h.sized, h.serving, h.behind, ?_, ?_, ?_⟩
  · exact fun r hr => absurd hr.symm (Option.some_ne_none r)
  · exact fun _ hb => absurd hb (List.not_mem_nil)
  · exact fun _ hc => absurd hc (List.not_mem_nil)

theorem sends_named {f : Fields} (hn : Named f) : sends f ≠ none := by
  obtain ⟨e, he⟩ := Option.ne_none_iff_exists'.mp hn.1
  obtain ⟨k, hk⟩ := Option.ne_none_iff_exists'.mp hn.2
  simp [sends, he, hk]

/-- Only a string that could not be copied makes a thread stick. -/
theorem Working.not_stuck (h : Working start a t (a.dispatch.threads t) u exchange m tried) {r : Route}
    (ht : Forwarding r (a.dispatch.threads t))
    (hwhy : (∃ b, bindingMatches a.dispatch.server r.exchange r.message.routingKey b = none) ∨
      ∃ c ∈ atHand (a.dispatch.threads t), sends c.toFields = none) : ¬ start.heap.AllGranted := by
  intro hg
  obtain ⟨-, hclone, -⟩ := h.route r ht.1
  rcases hwhy with ⟨b, hb⟩ | ⟨c, hc, hnone⟩
  · obtain ⟨hit, hhit⟩ := bindingMatches_returns a.dispatch.server r.exchange (hclone.named hg).2 b
    rw [hb] at hhit
    cases hhit
  · exact sends_named ((h.hand c hc).named hg) hnone

/-! ### Taking the mutex, storing, giving it back -/

/-- With thread `t` inside, no other is. -/
theorem Traces.alone (h : Traces start a) (hin : Inside (a.dispatch.threads t)) (t' : Nat) (hne : t' ≠ t) :
    ¬ Inside (a.dispatch.threads t') := by
  intro hin'
  have hsame := (h.lock t').mp hin'
  rw [(h.lock t).mp hin] at hsame
  exact hne (Option.some.inj hsame).symm

/-- The number it waited with is now that of its turn. -/
theorem Traces.enters (h : Traces start a) {message : Message} (ht : a.dispatch.threads t = .entering exchange message)
    (hfree : a.dispatch.holder = none) :
    Traces start (a.follow t { a.dispatch.go t a.dispatch.server
      (.routing ⟨exchange, message, a.dispatch.server.broker.bindings, 0⟩) with holder := some t }) := by
  obtain ⟨m, hcall, hsized, hnamed, hclone⟩ := h.awaits t exchange message ht
  have hnone := h.free hfree
  have hturns : a.turns = a.finished := by rw [Traced.turns, hnone, Option.toList_none, List.append_nil]
  have hlt := (List.getElem?_eq_some_iff.mp hcall).1
  have hlock := h.lock
  rw [hfree] at hlock
  simp only [Traced.follow, hnone, if_true, if_neg (Option.some_ne_none t)]
  refine h.step (t := t) rfl rfl (Static.refl _) (hlock.take trivial) ?_ (fun hn => absurd hn (Option.some_ne_none t)) h.finished ?_
    (fun _ _ he => by cases he) (fun _ => ?_) ?_ (fun _ hp => by cases hp)
  · show a.dispatch.log = _
    rw [h.log, hturns]
    simp [Traced.turns]
  · exact fun t' _ hin => absurd ((hlock t').mp hin).symm (Option.some_ne_none t')
  · refine ⟨_, exchange, m, [], rfl, rfl, hsized, ⟨hcall, hnamed, ?_, List.Sublist.refl _, fun _ _ _ => rfl⟩, List.nil_prefix,
      ?_, ?_, ?_⟩
    · exact fun _ hc => absurd hc (List.not_mem_nil)
    · intro r hr
      cases hr
      exact ⟨rfl, hclone, by rw [pending, List.append_nil, List.nil_append]; exact congrArg Broker.bindings h.static.broker⟩
    · exact fun _ hb => absurd hb (List.not_mem_nil)
    · exact fun _ hc => absurd hc (List.not_mem_nil)
  · intro t'
    simp only [Traced.numbers, hturns]
    simp only [Traced.turns, Option.toList_some, List.filter_append, List.map_append, Traced.waiting, Dispatch.go]
    by_cases he : t' = t
    · subst he
      simp [ht, awaiting]
    · have hne : ¬ t = t' := fun e => he e.symm
      simp [he, hne]

theorem Traces.leaves (h : Traces start a) {r : Route} {heap : Heap} (hs : a.dispatch.server.heap.AllGranted → heap.AllGranted)
    (ht : a.dispatch.threads t = .routing r) (hleft : r.left = []) :
    Traces start (a.follow t
      { a.dispatch.go t { a.dispatch.server with heap } (.returning r.message r.routed) with holder := none }) := by
  have hin : Inside (a.dispatch.threads t) := by rw [ht]; trivial
  obtain ⟨u, exchange, m, tried, hw⟩ := h.works t hin
  obtain ⟨-, -, hsplit⟩ := hw.route r (by rw [ht]; rfl)
  rw [ht, pending, hleft, List.append_nil, List.append_nil] at hsplit
  have hlock := h.lock
  rw [(h.lock t).mp hin] at hlock
  have hturns : a.turns = a.finished ++ [u] := by rw [Traced.turns, hw.current, Option.toList_some]
  have hsame : u.store (a.dispatch.log.drop a.dispatch.log.length) = u := by
    rw [List.drop_length, Turn.store, List.append_nil]
  have hfollow : a.follow t
      { a.dispatch.go t { a.dispatch.server with heap } (.returning r.message r.routed) with holder := none } =
      { a with
        dispatch := { a.dispatch.go t { a.dispatch.server with heap } (.returning r.message r.routed) with holder := none }
        finished := a.finished ++ [u]
        current := none } := by
    simp only [Traced.follow, hw.current, if_true, Option.toList_some]
    congr 3
  rw [hfollow]
  refine h.step (t := t) rfl rfl (static_heap hs) (hlock.release id) ?_ (fun _ => rfl) ?_ (fun t' hne hin' => ?_)
    (fun _ _ he => by cases he) False.elim ?_ (fun _ hp => by cases hp)
  · show a.dispatch.log = _
    rw [h.log, hturns, Traced.turns, Option.toList_none, List.append_nil]
  · intro u' hu'
    rcases List.mem_append.mp hu' with hu' | hu'
    · obtain ⟨exchange', m', hserving⟩ := h.finished u' hu'
      exact ⟨exchange', m', hserving.later (static_heap hs)⟩
    · rw [List.mem_singleton.mp hu']
      have hserving := hw.serving
      rw [hsplit] at hserving
      exact ⟨exchange, m, hserving.later (static_heap hs)⟩
  · exact absurd hin' (h.alone hin t' hne)
  · intro t'
    simp only [Traced.numbers, hturns]
    simp only [Traced.turns, Option.toList_none, List.append_nil, Traced.waiting, Dispatch.go]
    by_cases he : t' = t
    · subst he
      simp [ht, awaiting]
    · simp [he]

theorem afterStore_place (r : Route) (q : Queue Message) (clone : Message) :
    Inside (afterStore r q clone) ∧ pending (afterStore r q clone) = [] ∧
      routeOf (afterStore r q clone) = some { r with routed := r.routed + 1 } ∧
      atHand (afterStore r q clone) ⊆ [clone] := by
  unfold afterStore
  cases q.name with
  | none => exact ⟨trivial, rfl, rfl, List.nil_subset _⟩
  | some name => exact ⟨trivial, rfl, rfl, List.Subset.refl _⟩

theorem Traces.stores (h : Traces start a) {r : Route} {b : Binding} {clone : Message} (ht : a.dispatch.threads t = .storing r b clone)
    (hroom : (a.dispatch.server.queues b.queue).size ≠ (a.dispatch.server.queues b.queue).capacity) (d : Dispatch)
    (hd : d = { a.dispatch.go t { a.dispatch.server with
          queues := Function.update a.dispatch.server.queues b.queue (pushTail (a.dispatch.server.queues b.queue) clone) }
        (afterStore r (pushTail (a.dispatch.server.queues b.queue) clone) clone) with
      log := a.dispatch.log ++ [(b.queue, clone)] }) : Traces start (a.follow t d) := by
  have hin : Inside (a.dispatch.threads t) := by rw [ht]; trivial
  obtain ⟨u, exchange, m, tried, hw⟩ := h.works t hin
  obtain ⟨he, hclone, hsplit⟩ := hw.route r (by rw [ht]; rfl)
  rw [ht, pending] at hsplit
  obtain ⟨hinside, hnothing, hroute, hhand⟩ := afterStore_place r (pushTail (a.dispatch.server.queues b.queue) clone) clone
  have hholder : a.dispatch.holder = some t := (h.lock t).mp hin
  have hturns : a.turns = a.finished ++ [u] := by rw [Traced.turns, hw.current, Option.toList_some]
  have hstatic := static_store (s := a.dispatch.server) clone hroom
  have hholder' : d.holder ≠ none := by
    rw [hd]
    show a.dispatch.holder ≠ none
    rw [hholder]
    exact Option.some_ne_none t
  have hnew : d.log.drop a.dispatch.log.length = [(b.queue, clone)] := by
    rw [hd]
    exact List.drop_left
  have hfollow : a.follow t d = { a with dispatch := d, current := some (u.store [(b.queue, clone)]) } := by
    simp only [Traced.follow, hw.current, hnew, if_neg hholder']
  rw [hfollow]
  subst hd
  have hmatch : Matches start exchange m.routingKey b := hw.matching b (by rw [ht]; exact List.mem_singleton_self b)
  have hmine : Clones start clone m := hw.hand clone (by rw [ht]; exact List.mem_singleton_self clone)
  refine h.step (t := t) rfl rfl hstatic (h.lock.stay (iff_of_true hinside hin)) ?_ (fun hn => absurd hn hholder') ?_
    (fun t' hne hin' => ?_) (fun exchange' message' he' => ?_) (fun _ => ?_) ?_ (fun _ hp => ?_)
  · show a.dispatch.log ++ _ = _
    rw [h.log, hturns]
    simp [Traced.turns, Turn.store]
  · intro u' hu'
    obtain ⟨exchange', m', hserving⟩ := h.finished u' hu'
    exact ⟨exchange', m', hserving.later hstatic⟩
  · exact absurd hin' (h.alone hin t' hne)
  · rw [he'] at hinside
    exact hinside
  · refine ⟨_, exchange, m, tried ++ [b], rfl, hw.thread, hw.sized, (hw.serving.later hstatic).stores hmatch hmine,
      ⟨r.left, hsplit⟩, ?_, ?_, ?_⟩
    · intro r' hr
      rw [hroute] at hr
      cases hr
      rw [hnothing, List.append_nil]
      exact ⟨he, hclone, hsplit⟩
    · rw [hnothing]
      exact fun _ hb => absurd hb (List.not_mem_nil)
    · intro c hc
      rw [List.mem_singleton.mp (hhand hc)]
      exact hmine
  · intro t'
    simp only [Traced.numbers, hturns]
    simp only [Traced.turns, Option.toList_some, Turn.store, Traced.waiting, Dispatch.go]
    congr 1
    · by_cases hu : u.thread = t'
      · simp [hu]
      · simp [hu]
    · by_cases he' : t' = t
      · subst he'
        rw [Function.update_self, ht, awaiting_none]
        · rfl
        · intro _ _ he'
          rw [he'] at hinside
          exact hinside
      · rw [Function.update_of_ne he']
  · rw [hp] at hroute
    cases hroute

theorem forwarding_inside {r : Route} (h : Forwarding r p) : Inside p ∧ ∀ exchange message, p ≠ .entering exchange message := by
  obtain ⟨h, -⟩ := h
  cases p with
  | idle => cases h
  | entering exchange message => cases h
  | returning message routed => cases h
  | stuck => cases h
  | routing r => exact ⟨trivial, fun _ _ he => by cases he⟩
  | storing r b clone => exact ⟨trivial, fun _ _ he => by cases he⟩
  | forwarding r f => exact ⟨trivial, fun _ _ he => by cases he⟩
  | sending r f fd left => exact ⟨trivial, fun _ _ he => by cases he⟩

theorem traces_steps (h : Traces start a) {d : Dispatch} (hm : Steps a.dispatch t d) : Traces start (a.follow t d) := by
  cases hm with
  | rests =>
    rw [h.follow_same t rfl rfl]
    exact h
  | enters exchange message ht hfree => exact h.enters ht hfree
  | leaves r heap hs ht hleft => exact h.leaves hs ht hleft
  | passes r b bs heap hs ht hleft hmiss =>
    exact h.moves (static_heap hs) (iff_of_true trivial (by rw [ht]; trivial)) (by simp [ht]) (fun _ _ he => by cases he)
      (fun _ u exchange m tried hw => ⟨_, hw.passes h.static hs ht hleft hmiss⟩) (fun _ hp => by cases hp)
  | picks r b bs clone heap ht hleft hmatch hclone =>
    exact h.moves (static_heap (clone_granted hclone)) (iff_of_true trivial (by rw [ht]; trivial)) (by simp [ht])
      (fun _ _ he => by cases he) (fun _ u exchange m tried hw => ⟨_, hw.picks h.static ht hleft hmatch hclone⟩)
      (fun _ hp => by cases hp)
  | stores r b clone ht hroom => exact h.stores ht hroom _ rfl
  | refuses r b clone heap hs ht hfull =>
    exact h.moves (static_heap hs) (iff_of_true trivial (by rw [ht]; trivial)) (by simp [ht]) (fun _ _ he => by cases he)
      (fun _ u exchange m tried hw => ⟨_, hw.refuses hs ht hfull⟩) (fun _ hp => by cases hp)
  | forwards r p outlets ht hp hhand =>
    obtain ⟨hin, hwas⟩ := forwarding_inside ht
    obtain ⟨hin', hnow⟩ := forwarding_inside hp
    exact h.moves (static_outlets _ outlets) (iff_of_true hin' hin) hwas hnow
      (fun _ u exchange m tried hw => ⟨_, hw.forwards ht hp hhand⟩) (fun _ he => by rw [he] at hp; cases hp.1)
  | sticks r ht hwhy =>
    obtain ⟨hin, hwas⟩ := forwarding_inside ht
    obtain ⟨u, exchange, m, tried, hw⟩ := h.works t hin
    exact h.moves (Static.refl _) (iff_of_true trivial hin) hwas (fun _ _ he => by cases he)
      (fun _ u exchange m tried hw => ⟨_, hw.sticks⟩) fun hg _ => hw.not_stuck ht hwhy hg
  | returns message routed heap hs ht =>
    have hout : ¬ Inside (a.dispatch.threads t) := by
      rw [ht]
      exact id
    exact h.moves (static_heap hs) (iff_of_false id hout) (by simp [ht]) (fun _ _ he => by cases he)
      False.elim (fun _ hp => by cases hp)

/-! ### Calling -/

/-- A call by thread `t`, which is in its loop: it fails for want of memory or of a string, or waits for the mutex. -/
theorem Traces.calls {a' : Traced} (h : Traces start a) {message : Message} (hm : Sized message.toFields)
    (ht : a.dispatch.threads t = .idle) (hthreads : a'.dispatch.threads = Function.update a.dispatch.threads t p)
    (hpublished : a'.published = Function.update a.published t (a.published t ++ [(exchange, message)]))
    (hholder : a'.dispatch.holder = a.dispatch.holder) (hlog : a'.dispatch.log = a.dispatch.log)
    (hs : Static a.dispatch.server a'.dispatch.server) (hfinished : a'.finished = a.finished) (hcurrent : a'.current = a.current)
    (hp : (p = .idle ∧ (start.heap.AllGranted → ¬ Named message.toFields)) ∨
      ∃ c, p = .entering exchange c ∧ Named message.toFields ∧ Clones start c message) : Traces start a' := by
  have hwas : ¬ Inside (a.dispatch.threads t) := by
    rw [ht]
    exact id
  have hout : ¬ Inside p := by
    rcases hp with ⟨rfl, -⟩ | ⟨c, rfl, -⟩
    · exact id
    · exact id
  have hhere : a'.dispatch.threads t = p := by rw [hthreads, Function.update_self]
  have hthere : ∀ t' ≠ t, a'.dispatch.threads t' = a.dispatch.threads t' := by
    intro t' hne
    rw [hthreads, Function.update_of_ne hne]
  have hmine : a'.published t = a.published t ++ [(exchange, message)] := by rw [hpublished, Function.update_self]
  have hothers : ∀ t' ≠ t, a'.published t' = a.published t' := by
    intro t' hne
    rw [hpublished, Function.update_of_ne hne]
  have hturns : a'.turns = a.turns := by rw [Traced.turns, Traced.turns, hfinished, hcurrent]
  have hnumbers : ∀ t', a'.numbers t' = a.numbers t' := fun t' => by rw [Traced.numbers, Traced.numbers, hturns]
  have hcalled : ∀ {u exchange' m tried now}, Serving start now a.published u exchange' m tried →
      Serving start now a'.published u exchange' m tried := by
    intro u exchange' m tried now hserving
    rw [hpublished]
    exact hserving.called t _
  refine ⟨?_, h.static.trans hs, by rw [hlog, hturns, h.log], fun hn => ?_, ?_, ?_, ?_, ?_, ?_, ?_⟩
  · rw [hholder, hthreads]
    exact h.lock.stay (iff_of_false hout hwas)
  · rw [hcurrent]
    exact h.free (hholder ▸ hn)
  · intro u hu
    rw [hfinished] at hu
    obtain ⟨exchange', m, hserving⟩ := h.finished u hu
    exact ⟨exchange', m, hcalled (hserving.later hs)⟩
  · intro t' exchange' message' ht'
    by_cases he : t' = t
    · rw [he, hhere] at ht'
      rcases hp with ⟨rfl, -⟩ | ⟨c, rfl, hnamed, hclone⟩
      · cases ht'
      · cases ht'
        refine ⟨message, ?_, hm, hnamed, hclone⟩
        rw [he, hmine, List.length_append, List.length_singleton, Nat.add_sub_cancel]
        exact List.getElem?_concat_length ..
    · rw [hthere t' he] at ht'
      rw [Awaits, hothers t' he]
      exact h.awaits t' exchange' message' ht'
  · intro t' hin
    by_cases he : t' = t
    · rw [he, hhere] at hin
      exact absurd hin hout
    · rw [hthere t' he] at hin ⊢
      obtain ⟨u, exchange', m, tried, hw⟩ := h.works t' hin
      exact ⟨u, exchange', m, tried, hw.later hcurrent hs fun _ => hcalled⟩
  · intro t'
    rw [hnumbers, Traced.waiting]
    by_cases he : t' = t
    · have horder := h.order t
      rw [Traced.waiting, ht, awaiting, List.append_nil] at horder
      rw [he, hhere, hmine, List.length_append, List.length_singleton, List.range_succ]
      refine horder.append ?_
      rcases hp with ⟨rfl, -⟩ | ⟨c, rfl, -⟩
      · exact List.nil_sublist _
      · exact List.Sublist.refl _
    · rw [hthere t' he, hothers t' he]
      exact h.order t'
  · intro hg t'
    rw [hnumbers, Traced.waiting]
    by_cases he : t' = t
    · have hevery := h.every hg t
      rw [Traced.waiting, ht, awaiting, List.append_nil] at hevery
      rw [he, hhere, hmine, List.length_append, List.length_singleton, List.range_succ, List.filter_append, hevery]
      congr 1
      · refine List.filter_congr fun k hk => ?_
        rw [Traced.named, Traced.named, hmine, List.getElem?_append_left (List.mem_range.mp hk)]
      · have hlast : a'.named t (a.published t).length = decide (Named message.toFields) := by
          rw [Traced.named, hmine, List.getElem?_concat_length, Option.any_some]
        rcases hp with ⟨rfl, hno⟩ | ⟨c, rfl, hyes, -⟩
        · simp [awaiting, hlast, hno hg]
        · simp [awaiting, hlast, hyes]
    · have hnamed : a'.named t' = a.named t' := by
        funext k
        rw [Traced.named, Traced.named, hothers t' he]
      rw [hthere t' he, hothers t' he, hnamed]
      exact h.every hg t'
  · intro hg t'
    by_cases he : t' = t
    · rw [he, hhere]
      rcases hp with ⟨rfl, -⟩ | ⟨c, rfl, -⟩
      · exact fun hs => by cases hs
      · exact fun hs => by cases hs
    · rw [hthere t' he]
      exact h.returns hg t'

/-- A pass of the event loop, with the mutex free. -/
theorem Traces.passed (h : Traces start a) {n : Node} (hs : Static a.dispatch.server n.server) :
    Traces start { a with dispatch := { a.dispatch with node := n } } := by
  refine ⟨h.lock, h.static.trans hs, h.log, h.free, ?_, h.awaits, ?_, h.order, h.every, h.returns⟩
  · intro u hu
    obtain ⟨exchange, m, hserving⟩ := h.finished u hu
    exact ⟨exchange, m, hserving.later hs⟩
  · intro t' hin
    obtain ⟨u, exchange, m, tried, hw⟩ := h.works t' hin
    exact ⟨u, exchange, m, tried, hw.later rfl hs fun _ => id⟩

end Step

/-- The messages of an event have bodies of the size they say. -/
def WellSized : DispatchEvent → Prop
  | .publish _ _ message => Sized message.toFields
  | .step _ | .timeouts _ => True

theorem traces_step {start : Server} (a : Traced) (e : DispatchEvent) (h : Traces start a) (hm : WellSized e) :
    Traces start (tracedStep a e) := by
  cases e with
  | step t => exact traces_steps h (threadStep_steps a.dispatch t)
  | timeouts now =>
    simp only [tracedStep, dispatchStep]
    split
    · exact h.passed (static_timeouts now a.dispatch.node)
    · exact h
  | publish t exchange message =>
    simp only [tracedStep, dispatchStep, publishBegins]
    cases ht : a.dispatch.threads t with
    | idle =>
      rw [if_pos (show Looping .idle from trivial)]
      dsimp only
      cases hc : messageClone message a.dispatch.server.heap with
      | mk clone heap =>
      have hs : Static a.dispatch.server { a.dispatch.server with heap } := static_heap (clone_granted hc)
      cases clone with
      | none =>
        refine h.calls hm ht rfl rfl rfl rfl hs rfl rfl (Or.inl ⟨rfl, fun hg hn => ?_⟩)
        exact clone_made h.static hm hn (congrArg Prod.fst hc) hg
      | some clone =>
        obtain ⟨hn, hclone⟩ := clone_clones h.static hm hc
        exact h.calls hm ht rfl rfl rfl rfl hs rfl rfl (Or.inr ⟨clone, rfl, hn, hclone⟩)
    | _ =>
      rw [if_neg (show ¬ Looping _ from id)]
      exact h

theorem traced_traces (n : Node) : Traces n.server n.traced := by
  refine ⟨fun t => iff_of_false id (Option.some_ne_none t).symm, Static.refl _, rfl, fun _ => rfl, ?_, ?_, fun _ => False.elim, ?_,
    ?_, ?_⟩
  · exact fun _ hu => absurd hu (List.not_mem_nil)
  · exact fun _ _ _ ht => by cases ht
  · exact fun _ => List.Sublist.refl _
  · exact fun _ _ => rfl
  · exact fun _ _ ht => by cases ht

/-! ### Messages that came as frames -/

/-- What `receive_message_data` makes of a frame. -/
def FromFrame (m : Fields) : Prop := ∃ f : Frame, CopyOf m f.fields

theorem frame_sized (f : Frame) : Sized f.fields := by
  have hnat : (UInt64.ofNat f.body.length).toNat = f.body.length := by
    rw [UInt64.toNat_ofNat']
    exact Nat.mod_eq_of_lt (by have := f.bodyFits; omega)
  by_cases hb : f.body = []
  · exact Or.inl ⟨by simp [Frame.fields, hb], if_pos hb⟩
  · refine Or.inr ⟨?_, f.body, if_neg hb, hnat.symm⟩
    have hpos := List.length_pos_iff.mpr hb
    rw [UInt64.lt_iff_toNat_lt]
    show 0 < (UInt64.ofNat f.body.length).toNat
    omega

def Carried : DispatchEvent → Prop
  | .publish _ _ message => FromFrame message.toFields
  | .step _ | .timeouts _ => True

theorem carried_sized {e : DispatchEvent} (h : Carried e) : WellSized e := by
  cases e with
  | publish t exchange message =>
    obtain ⟨f, hf⟩ := h
    exact hf.sized (frame_sized f)
  | step t => trivial
  | timeouts now => trivial

theorem inTurns_carried : ∀ e ∈ inTurns, Carried e := by
  have hframe : FromFrame aMessage.toFields := ⟨twoBytes, Or.inr rfl, Or.inr rfl, rfl, rfl, rfl, rfl, rfl⟩
  intro e he
  cases e with
  | publish t exchange message =>
    simp only [inTurns, List.mem_append, List.mem_cons, List.not_mem_nil, or_false, List.mem_flatten] at he
    rcases he with (he | he) | ⟨l, hl, he⟩
    · cases he
      exact hframe
    · cases he
      exact hframe
    · rw [List.eq_of_mem_replicate hl] at he
      simp at he
  | step t => trivial
  | timeouts now => trivial

theorem inTurns_sized : ∀ e ∈ inTurns, WellSized e := fun e he => carried_sized (inTurns_carried e he)

/-! ## (1) In turn -/

/-- Turn `u` was for a message its thread published, in its place among them. -/
def OfOne (start : Server) (a : Traced) (u : Turn) : Prop :=
  ∃ exchange m, (a.published u.thread)[u.number]? = some (exchange, m) ∧ Named m.toFields ∧
    (∀ c ∈ u.copies, CopyOf c.2.toFields m.toFields) ∧
    (u.copies.map (·.1)).Sublist (matched start exchange m.routingKey start.broker.bindings)

structure InTurn (start : Server) (a : Traced) : Prop where
  log : a.dispatch.log = a.turns.flatMap (·.copies)
  one : ∀ u ∈ a.turns, OfOne start a u
  order : ∀ t, (a.numbers t).Pairwise (· < ·)

theorem Traces.ofOne {start : Server} {a : Traced} (h : Traces start a) {u : Turn} (hu : u ∈ a.turns) : OfOne start a u := by
  rcases List.mem_append.mp hu with hu | hu
  · obtain ⟨exchange, m, hserving⟩ := h.finished u hu
    exact ⟨exchange, m, hserving.call, hserving.named, fun c hc => (hserving.clones c hc).copy, hserving.stored⟩
  · rw [Option.mem_toList] at hu
    have hholder : a.dispatch.holder ≠ none := by
      intro hn
      rw [h.free hn] at hu
      cases hu
    obtain ⟨t, ht⟩ := Option.ne_none_iff_exists'.mp hholder
    obtain ⟨u', exchange, m, tried, hw⟩ := h.works t ((h.lock t).mpr ht)
    rw [hw.current] at hu
    cases hu
    have hserving := hw.serving
    refine ⟨exchange, m, hserving.call, hserving.named, fun c hc => (hserving.clones c hc).copy, hserving.stored.trans ?_⟩
    obtain ⟨rest, hrest⟩ := hw.behind
    rw [← hrest, matched_append]
    exact List.sublist_append_left ..

theorem traces_run (n : Node) {es : List DispatchEvent} (hes : ∀ e ∈ es, WellSized e) :
    Traces n.server (Run.run tracedStep n.traced es) :=
  Run.along_inv traces_step (traced_traces n) (Run.along_of_forall fun e he _ => hes e he)

/-- Any number of threads, any requests refused, the steps and passes in any order. -/
theorem published_in_turn (n : Node) {es : List DispatchEvent} (hes : ∀ e ∈ es, WellSized e) :
    (Run.run tracedStep n.traced es).dispatch = Run.run dispatchStep n.dispatching es ∧
      InTurn n.server (Run.run tracedStep n.traced es) := by
  have h := traces_run n hes
  refine ⟨traced_dispatch es n.traced, h.log, fun u hu => h.ofOne hu, fun t => ?_⟩
  have hsub := (List.sublist_append_left _ _).trans (h.order t)
  exact List.pairwise_lt_range.sublist hsub

theorem published_in_turn_by_two : (Run.run tracedStep aBroker.traced inTurns).dispatch =
    Run.run dispatchStep aBroker.dispatching inTurns ∧ InTurn aBroker.server (Run.run tracedStep aBroker.traced inTurns) :=
  published_in_turn aBroker inTurns_sized

/-! ## (2) With room, nothing is lost -/

structure NothingLost (start : Server) (a : Traced) : Prop where
  returns : ∀ t, a.dispatch.threads t ≠ .stuck
  /-- A thread back in its loop has had a turn for each message with both strings. -/
  every : ∀ t, a.dispatch.threads t = .idle → a.numbers t = (List.range (a.published t).length).filter (a.named t)
  /-- With the mutex free, each matching binding of a queue that has room has its copy. -/
  all : a.dispatch.holder = none → ∀ u ∈ a.turns, ∀ exchange m, (a.published u.thread)[u.number]? = some (exchange, m) →
    ∀ q, Roomy (a.dispatch.server.queues q) →
      (u.copies.map (·.1)).count q = (matched start exchange m.routingKey start.broker.bindings).count q

theorem nothing_lost_with_room (n : Node) (hg : n.server.heap.AllGranted) {es : List DispatchEvent}
    (hes : ∀ e ∈ es, WellSized e) : NothingLost n.server (Run.run tracedStep n.traced es) := by
  have h := traces_run n hes
  refine ⟨h.returns hg, fun t ht => ?_, fun hfree u hu exchange m hcall q hq => ?_⟩
  · have hevery := h.every hg t
    rwa [Traced.waiting, ht, awaiting, List.append_nil] at hevery
  · rw [Traced.turns, h.free hfree, Option.toList_none, List.append_nil] at hu
    obtain ⟨exchange', m', hserving⟩ := h.finished u hu
    have hsame := hserving.call
    rw [hcall] at hsame
    cases hsame
    exact hserving.all hg q hq

theorem nothing_lost_in_turns : NothingLost aBroker.server (Run.run tracedStep aBroker.traced inTurns) :=
  nothing_lost_with_room aBroker (fun _ => rfl) inTurns_sized

/-! ## (3) What a consumer reads -/

theorem carried_step (a : Traced) (e : DispatchEvent) (h : ∀ t, ∀ call ∈ a.published t, FromFrame call.2.toFields)
    (he : Carried e) : ∀ t, ∀ call ∈ (tracedStep a e).published t, FromFrame call.2.toFields := by
  cases e with
  | step t =>
    have hsame : (tracedStep a (.step t)).published = a.published := by
      simp only [tracedStep, Traced.follow]
      split
      · rfl
      · rfl
    rw [hsame]
    exact h
  | timeouts now => exact h
  | publish t exchange message =>
    simp only [tracedStep]
    split
    · intro t' call hcall
      by_cases ht : t' = t
      · subst ht
        simp only [Function.update_self] at hcall
        rcases List.mem_append.mp hcall with hcall | hcall
        · exact h t' call hcall
        · rw [List.mem_singleton.mp hcall]
          exact he
      · simp only [Function.update_of_ne ht] at hcall
        exact h t' call hcall
    · exact h

/-- The published message, for each copy with its strings in a queue of client `i`. -/
def readOf (start : Server) (a : Traced) (i : Nat) (u : Turn) : List Fields :=
  (u.copies.filter fun c => Subscribed start i c.1 ∧ Named c.2.toFields).filterMap fun _ =>
    (a.published u.thread)[u.number]?.map (·.2.toFields)

theorem frameOf_unnamed {m : Fields} (h : ¬ Named m) : frameOf m = [] := by
  have hnone : sends m = none := by
    unfold sends
    split
    · rename_i he hk
      exact absurd ⟨by rw [he]; exact Option.some_ne_none _, by rw [hk]; exact Option.some_ne_none _⟩ h
    · rfl
  rw [frameOf, hnone]
  rfl

/-- The frames of a turn, on the wire and read back. -/
theorem turn_frames {start : Server} {a : Traced} {u : Turn} (i : Nat) (h : OfOne start a u)
    (hr : ∀ t, ∀ call ∈ a.published t, FromFrame call.2.toFields) : ∃ fs : List Frame, fs.map Frame.fields = readOf start a i u ∧
      fs.flatMap Frame.encode = (copiesFor start i u.copies).flatMap fun c => frameOf c.toFields := by
  obtain ⟨exchange, m, hcall, hnamed, hcopy, -⟩ := h
  obtain ⟨f, hf⟩ := hr _ _ (List.mem_of_getElem? hcall)
  have hm : m.toFields = f.fields := hf.eq hnamed
  refine ⟨(u.copies.filter fun c => Subscribed start i c.1 ∧ Named c.2.toFields).map fun _ => f, ?_, ?_⟩
  · have hone : (fun _ : Nat × Message => (some (exchange, m)).map fun call : Nat × Message => call.2.toFields) =
        some ∘ fun _ => f.fields := by
      funext _
      rw [← hm]
      rfl
    rw [readOf, hcall, hone, List.filterMap_eq_map, List.map_map]
    rfl
  · rw [List.flatMap_map, copiesFor, List.flatMap_map]
    clear hcall
    generalize u.copies = copies at hcopy ⊢
    induction copies with
    | nil => rfl
    | cons c copies ih =>
      have hrest := ih fun c' hc' => hcopy c' (List.mem_cons_of_mem c hc')
      by_cases hsub : Subscribed start i c.1
      · by_cases hc : Named c.2.toFields
        · have hsame : frameOf c.2.toFields = f.encode := by
            rw [(hcopy c List.mem_cons_self).eq hc, hm]
            rfl
          simp only [List.filter_cons, hsub, hc, and_self, decide_true, if_true, List.flatMap_cons, hsame, hrest]
        · simp only [List.filter_cons, hsub, hc, and_false, decide_false, decide_true, if_true, List.flatMap_cons,
            frameOf_unnamed hc, List.nil_append, hrest, Bool.false_eq_true, if_false]
      · simp only [List.filter_cons, hsub, false_and, decide_false, Bool.false_eq_true, if_false, hrest]

theorem copiesFor_turns (start : Server) (i : Nat) (us : List Turn) :
    copiesFor start i (us.flatMap (·.copies)) = us.flatMap fun u => copiesFor start i u.copies := by
  unfold copiesFor
  rw [List.filter_flatMap, List.map_flatMap]

theorem turns_frames {start : Server} {a : Traced} (i : Nat) (hr : ∀ t, ∀ call ∈ a.published t, FromFrame call.2.toFields)
    (us : List Turn) (hus : ∀ u ∈ us, OfOne start a u) : ∃ fs : List Frame, fs.map Frame.fields = us.flatMap (readOf start a i) ∧
      fs.flatMap Frame.encode = (copiesFor start i (us.flatMap (·.copies))).flatMap fun c => frameOf c.toFields := by
  induction us with
  | nil => exact ⟨[], rfl, rfl⟩
  | cons u us ih =>
    obtain ⟨fs, hfs, hbytes⟩ := turn_frames i (hus u List.mem_cons_self) hr
    obtain ⟨gs, hgs, hrest⟩ := ih fun u' hu' => hus u' (List.mem_cons_of_mem u hu')
    refine ⟨fs ++ gs, ?_, ?_⟩
    · rw [List.map_append, List.flatMap_cons, hfs, hgs]
    · rw [copiesFor_turns, List.flatMap_cons, List.flatMap_append, List.flatMap_append, hbytes, hrest, copiesFor_turns]

/-- With the mutex free, nothing is owed to client `i`. -/
theorem Traces.reads {start : Server} {a : Traced} {i : Nat} (h : Traces start a)
    (hr : ∀ t, ∀ call ∈ a.published t, FromFrame call.2.toFields) (hserves : Serves start i a.dispatch)
    (hfree : a.dispatch.holder = none) : ∃ fs : List Frame,
      (a.dispatch.server.outlets (start.clients i).fd).stream = (start.outlets (start.clients i).fd).stream ++ fs.flatMap Frame.encode ∧
        fs.map Frame.fields = a.turns.flatMap (readOf start a i) := by
  have hstream := hserves.stream
  rw [hfree, Lock.current_none, owed, List.append_nil] at hstream
  obtain ⟨fs, hfs, hbytes⟩ := turns_frames i hr _ fun u hu => h.ofOne hu
  refine ⟨fs, ?_, hfs⟩
  rw [hbytes, ← h.log, hstream]

/-- With the mutex free, the bytes sent to client `i` since the start read back as the messages
    of the turns, in the order of the turns. -/
theorem consumers_read_what_was_published (n : Node) {i : Nat} (hreg : RegisteredOnce n.server i)
    (hc : Complete (n.server.outlets (n.server.clients i).fd)) {es : List DispatchEvent} (hes : ∀ e ∈ es, Carried e)
    (hfree : (Run.run tracedStep n.traced es).dispatch.holder = none) :
    ∃ bytes, ((Run.run tracedStep n.traced es).dispatch.server.outlets (n.server.clients i).fd).stream =
        (n.server.outlets (n.server.clients i).fd).stream ++ bytes ∧
      PeerGets bytes ((Run.run tracedStep n.traced es).turns.flatMap (readOf n.server (Run.run tracedStep n.traced es) i)) := by
  have h := traces_run n fun e he => carried_sized (hes e he)
  have hr : ∀ t, ∀ call ∈ (Run.run tracedStep n.traced es).published t, FromFrame call.2.toFields :=
    Run.along_inv carried_step (fun _ _ hcall => absurd hcall List.not_mem_nil) (Run.along_of_forall fun e he _ => hes e he)
  have hserves := Run.run_inv (serves_step hreg) es (dispatching_serves hc)
  rw [← show (Run.run tracedStep n.traced es).dispatch = Run.run dispatchStep n.dispatching es from traced_dispatch es n.traced]
    at hserves
  obtain ⟨fs, hstream, hfs⟩ := h.reads hr hserves hfree
  refine ⟨fs.flatMap Frame.encode, hstream, ?_⟩
  rw [← hfs]
  exact peer_gets_frames fs

theorem consumers_read_in_turns : ∃ bytes,
    ((Run.run tracedStep aBroker.traced inTurns).dispatch.server.outlets (aBroker.server.clients 0).fd).stream =
        (aBroker.server.outlets (aBroker.server.clients 0).fd).stream ++ bytes ∧
      PeerGets bytes
        ((Run.run tracedStep aBroker.traced inTurns).turns.flatMap
          (readOf aBroker.server (Run.run tracedStep aBroker.traced inTurns) 0)) :=
  consumers_read_what_was_published aBroker aBroker_registered (fun _ => rfl) inTurns_carried (by decide +kernel)

/-- The client reads both messages. -/
example : ((Run.run tracedStep aBroker.traced inTurns).turns.flatMap
    (readOf aBroker.server (Run.run tracedStep aBroker.traced inTurns) 0)).length = 2 := by decide +kernel

end RabbitMQ.Core
