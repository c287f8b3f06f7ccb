/-
  RabbitMQ.Core.Lifecycle — `broker_start`, `broker_stop`, `broker_free` and the threads of a
  broker, step by step.

  A start that gets past its check begins a cycle and creates the network thread and the
  event loop; the network thread creates a handler for each client it accepts. A step is a
  critical section under `broker->mutex`, a blocking call, or what a thread does between
  them to the client table, which is static. `late` counts the steps taken on the broker
  after `broker_free` has freed it. From the network thread's start on, the client table goes
  through what `Network` has it go through (`initialises_follows`, `lifecycle_run_follows`).

  A stop joins the event loop, and nobody joins the network thread, whose handle
  `broker_network_tid` is written and never read: it looks at `running` again only when
  `accept` returns. So a stop can return before it, a free can free the broker under it,
  and a start can create a second one (`a_stop_leaves_the_network_thread`). Where no two
  calls overlap, and the network thread has returned by the time a join of the event loop
  does, or a start or a free finds the broker not running, none of this happens
  (`stopped_is_over`).
-/

import RabbitMQ.Core.Network
import RabbitMQ.Lib.Lock
import RabbitMQ.Lib.Threads

namespace RabbitMQ.Core

open Lib

/-! ## The threads -/

inductive NetworkPlace where
  /-- `socket`, `bind` and `listen`. -/
  | opening
  | initialising
  | looking
  | accepting
  | closing (i : Nat)
  | joining (i : Nat)
  | exited
  deriving DecidableEq, Repr

inductive LoopPlace where
  | looking
  | timing
  | exited
  deriving DecidableEq, Repr

inductive HandlerPlace where
  | looking
  | receiving
  /-- `broker_get_exchange` -/
  | searching
  | publishing
  | exited
  deriving DecidableEq, Repr

structure HandlerTag where
  cycle : Nat
  slot : Nat
  deriving DecidableEq, Repr

/-- The next step of a call; `free`: the stop is called by `broker_free`. -/
inductive ApiPlace where
  | idle
  | creatingNetwork
  | creatingLoop
  | failingStart
  | stopping
  | joining (free : Bool) (cycle : Nat)
  /-- The stop of a cycle is to return 1. -/
  | stopped (free : Bool) (cycle : Nat)
  | releasing
  deriving DecidableEq, Repr

/-- `threads i` is `client_connections[i].thread`; a network thread and an event loop are
    tagged with their cycle. -/
structure Lifecycle where
  running : Bool
  freed : Bool
  cycle : Nat
  calls : Nat → ApiPlace
  networks : Threads Nat NetworkPlace
  loops : Threads Nat LoopPlace
  handlers : Threads HandlerTag HandlerPlace
  eventLoopThread : Option Nat
  clients : Nat → ClientConnection
  threads : Nat → Nat
  clientFds : Nat → Int
  clientCount : Nat
  late : Nat

namespace Lifecycle

/-- Caller `t` is at `p` next. -/
def go (s : Lifecycle) (t : Nat) (p : ApiPlace) : Lifecycle := { s with calls := Function.update s.calls t p }

def networkGo (s : Lifecycle) (k : Nat) (p : NetworkPlace) : Lifecycle := { s with networks := s.networks.go k p }

def loopGo (s : Lifecycle) (j : Nat) (p : LoopPlace) : Lifecycle := { s with loops := s.loops.go j p }

def handlerGo (s : Lifecycle) (h : Nat) (p : HandlerPlace) : Lifecycle := { s with handlers := s.handlers.go h p }

/-- A step on the broker. -/
def touch (s : Lifecycle) : Lifecycle := if s.freed then { s with late := s.late + 1 } else s

def setClient (s : Lifecycle) (i : Nat) (conn : ClientConnection) : Lifecycle :=
  { s with clients := Function.update s.clients i conn }

end Lifecycle

/-! ## The network thread -/

def initClients (s : Lifecycle) : Lifecycle :=
  { s with
    clients := fun i => if i < MAX_CONNECTIONS then { s.clients i with fd := -1, running := false } else s.clients i
    clientFds := fun i => if i < MAX_CONNECTIONS then -1 else s.clientFds i
    clientCount := 0 }

/-- The client is in slot `i`, with a handler. -/
def enrol (cycle : Nat) (i : Nat) (conn : ClientConnection) (s : Lifecycle) : Lifecycle :=
  { s.setClient i conn with
    handlers := s.handlers.spawn ⟨cycle, i⟩ .looking
    threads := Function.update s.threads i s.handlers.count
    clientFds := Function.update s.clientFds i conn.fd
    clientCount := s.clientCount + 1 }

/-- What the loop does with the result of `accept`; `thread`: the handler thread could be
    created. -/
def storeClient (cycle : Nat) (clientFd : Int) (thread : Bool) (s : Lifecycle) : Lifecycle :=
  if clientFd < 0 then s
  else if s.clientCount < MAX_CONNECTIONS then
    match freeSlot s.clients with
    | none => s
    | some i =>
      let conn := { s.clients i with fd := clientFd, isConsumer := false, running := true, queueName := noName }
      if thread then enrol cycle i conn s else s.setClient i { conn with fd := -1, running := false }
  else s

/-- The next step of network thread `k`; `ok`: whether the calls of `opening` succeed, and
    whether `pthread_create` does; `clientFd`: the result of `accept`. -/
def networkThreadStep (s : Lifecycle) (k : Nat) (clientFd : Int) (ok : Bool) : Lifecycle :=
  match s.networks.place k with
  | .opening => s.networkGo k (if ok then .initialising else .exited)
  | .initialising => (initClients s).networkGo k .looking
  | .looking => s.touch.networkGo k (if s.running then .accepting else .closing 0)
  | .accepting => (storeClient (s.networks.tag k) clientFd ok s).networkGo k .looking
  | .closing i =>
    if i < MAX_CONNECTIONS then
      if (s.clients i).fd = -1 then s.networkGo k (.closing (i + 1))
      else (s.setClient i { s.clients i with running := false }).networkGo k (.joining i)
    else ({ s with clientCount := 0 } : Lifecycle).networkGo k .exited
  | .joining i =>
    if s.handlers.place (s.threads i) = .exited then
      ({ s.setClient i { s.clients i with fd := -1 } with clientFds := Function.update s.clientFds i (-1) } : Lifecycle).networkGo k
        (.closing (i + 1))
    else s
  | .exited => s

/-! ## The event loop and the handlers -/

/-- `due`: the timeouts are looked at this time. -/
def eventLoopStep (s : Lifecycle) (j : Nat) (due : Bool) : Lifecycle :=
  match s.loops.place j with
  | .looking => s.touch.loopGo j (if s.running then .timing else .exited)
  | .timing => (if due then s.touch else s).loopGo j .looking
  | .exited => s

inductive Received where
  | nothing
  /-- A registration, or a message of a consumer. -/
  | kept
  | toPublish
  deriving DecidableEq, Repr

/-- `received`: what `receive_message_data` comes to; `found`: whether the exchange exists. -/
def handlerThreadStep (s : Lifecycle) (h : Nat) (received : Received) (found : Bool) : Lifecycle :=
  match s.handlers.place h with
  | .looking => s.handlerGo h (if (s.clients (s.handlers.tag h).slot).running then .receiving else .exited)
  | .receiving =>
    match received with
    | .nothing => s.handlerGo h .exited
    | .kept => s.handlerGo h .looking
    | .toPublish => s.handlerGo h .searching
  | .searching => s.touch.handlerGo h (if found then .publishing else .looking)
  | .publishing => s.touch.handlerGo h .looking
  | .exited => s

/-! ## The calls -/

/-- A broker that was freed is not passed to any further call. -/
def brokerStartCalled (s : Lifecycle) (t : Nat) : Lifecycle :=
  match s.calls t, s.freed with
  | .idle, false => if s.running then s else { s.go t .creatingNetwork with running := true, cycle := s.cycle + 1 }
  | _, _ => s

def brokerStopCalled (s : Lifecycle) (t : Nat) : Lifecycle :=
  match s.calls t, s.freed with
  | .idle, false => if s.running then { s.go t (.joining false s.cycle) with running := false } else s
  | _, _ => s

/-- `broker_free` looks at `running` without the mutex. -/
def brokerFreeCalled (s : Lifecycle) (t : Nat) : Lifecycle :=
  match s.calls t, s.freed with
  | .idle, false => if s.running then s.go t .stopping else s.go t .releasing
  | _, _ => s

/-- The next step of caller `t`; `ok`: whether `pthread_create` succeeds. A handle never set
    is waited for in vain. -/
def apiStep (s : Lifecycle) (t : Nat) (ok : Bool) : Lifecycle :=
  match s.calls t with
  | .idle => s
  | .creatingNetwork =>
    if ok then { s.go t .creatingLoop with networks := s.networks.spawn s.cycle .opening } else s.go t .failingStart
  | .creatingLoop =>
    if ok then { s.go t .idle with loops := s.loops.spawn s.cycle .looking, eventLoopThread := some s.loops.count }
    else s.go t .failingStart
  | .failingStart => { s.touch.go t .idle with running := false }
  | .stopping =>
    if s.running then { s.touch.go t (.joining true s.cycle) with running := false } else s.touch.go t .releasing
  | .joining free cycle =>
    match s.eventLoopThread with
    | none => s
    | some j => if s.loops.place j = .exited then s.go t (.stopped free cycle) else s
  | .stopped free _ => s.go t (if free then .releasing else .idle)
  | .releasing => { s.touch.go t .idle with freed := true }

inductive LifecycleEvent where
  | start (t : Nat)
  | stop (t : Nat)
  | free (t : Nat)
  | step (t : Nat) (ok : Bool)
  | network (k : Nat) (clientFd : Int) (ok : Bool)
  | loop (j : Nat) (due : Bool)
  | handler (h : Nat) (received : Received) (found : Bool)
  deriving DecidableEq, Repr

def lifecycleStep (s : Lifecycle) : LifecycleEvent → Lifecycle
  | .start t => brokerStartCalled s t
  | .stop t => brokerStopCalled s t
  | .free t => brokerFreeCalled s t
  | .step t ok => apiStep s t ok
  | .network k clientFd ok => networkThreadStep s k clientFd ok
  | .loop j due => eventLoopStep s j due
  | .handler h received found => handlerThreadStep s h received found

/-- A broker just created. -/
def newLifecycle : Lifecycle where
  running := false
  freed := false
  cycle := 0
  calls _ := .idle
  networks := ⟨fun _ => 0, fun _ => .exited, 0⟩
  loops := ⟨fun _ => 0, fun _ => .exited, 0⟩
  handlers := ⟨fun _ => ⟨0, 0⟩, fun _ => .exited, 0⟩
  eventLoopThread := none
  clients _ := ⟨0, false, noName, false⟩
  threads _ := 0
  clientFds _ := 0
  clientCount := 0
  late := 0

namespace Lifecycle

/-! ## The client table -/

/-- The table is that of `n`. -/
structure Agrees (s : Lifecycle) (n : Network) : Prop where
  clients : s.clients = n.server.clients
  clientFds : s.clientFds = n.clientFds
  clientCount : s.clientCount = n.clientCount

theorem initClients_agrees {s : Lifecycle} {n : Network} (h : s.Agrees n) : (initClients s).Agrees (initSlots n) := by
  refine ⟨?_, ?_, rfl⟩
  · simp only [initClients, initSlots, h.clients]
  · simp only [initClients, initSlots, h.clientFds]

end Lifecycle

/-- Before its loop the thread is at none of the places `Network` knows. -/
def NetworkPlace.acceptor : NetworkPlace → Option AcceptorPlace
  | .opening | .initialising => none
  | .looking => some .looking
  | .accepting => some .accepting
  | .closing i => some (.closing i)
  | .joining i => some (.joining i)
  | .exited => some .exited

/-- The step taken at a place, in `Network`. -/
def networkEvents (clientFd : Int) (ok : Bool) : NetworkPlace → List NetworkEvent
  | .looking => [.look]
  | .accepting => [.accept clientFd, .create ok]
  | .closing _ | .joining _ => [.close]
  | .opening | .initialising | .exited => []

namespace Lifecycle

/-- Network thread `k` is where the one of `n` is, and the handlers of the slots in use have
    returned that have in `n`. -/
structure Follows (s : Lifecycle) (k : Nat) (n : Network) : Prop extends s.Agrees n where
  running : s.running = n.running
  place : (s.networks.place k).acceptor = some n.place
  created : ∀ i, (n.server.clients i).fd ≠ -1 → i < MAX_CONNECTIONS →
    s.threads i < s.handlers.count ∧ (s.handlers.tag (s.threads i)).slot = i
  handlers : ∀ i, (n.server.clients i).fd ≠ -1 → i < MAX_CONNECTIONS →
    (s.handlers.place (s.threads i) = .exited ↔ n.handlers i = false)

section Follows

variable {s : Lifecycle} {n : Network} {k : Nat}

theorem Follows.at_place (h : s.Follows k n) {p : NetworkPlace} {place : AcceptorPlace} (hk : s.networks.place k = p)
    (hp : p.acceptor = some place) : n.place = place := by
  have hat := h.place
  rw [hk, hp] at hat
  exact (Option.some.inj hat).symm

theorem Follows.goes (h : s.Follows k n) {p : NetworkPlace} {place : AcceptorPlace} (hp : p.acceptor = some place) :
    (s.networkGo k p).Follows k { n with place } :=
  ⟨⟨h.clients, h.clientFds, h.clientCount⟩, h.running, (congrArg NetworkPlace.acceptor Threads.go_place_self).trans hp, h.created,
    h.handlers⟩

theorem Follows.touch (h : s.Follows k n) : s.touch.Follows k n := by
  unfold Lifecycle.touch
  split
  · exact ⟨⟨h.clients, h.clientFds, h.clientCount⟩, h.running, h.place, h.created, h.handlers⟩
  · exact h

/-- A slot in use stays so, or is freed. -/
theorem Follows.setClient (h : s.Follows k n) (i : Nat) (conn : ClientConnection) (hfd : conn.fd ≠ -1 → (n.server.clients i).fd ≠ -1)
    (asked : List (Nat × CString)) :
    (s.setClient i conn).Follows k
      { n with server := { n.server with clients := Function.update n.server.clients i conn }, asked } := by
  have hused : ∀ j, (Function.update n.server.clients i conn j).fd ≠ -1 → (n.server.clients j).fd ≠ -1 := by
    intro j hj
    by_cases hji : j = i
    · subst hji
      rw [Function.update_self] at hj
      exact hfd hj
    · rwa [Function.update_of_ne hji] at hj
  have hclients : Function.update s.clients i conn = Function.update n.server.clients i conn := by rw [h.clients]
  exact ⟨⟨hclients, h.clientFds, h.clientCount⟩, h.running, h.place,
    fun j hj => h.created j (hused j hj), fun j hj => h.handlers j (hused j hj)⟩

/-- The handler of slot `i` is a new thread. -/
theorem Follows.enrol (h : s.Follows k n) (cycle i : Nat) (conn : ClientConnection) (asked : List (Nat × CString)) :
    (enrol cycle i conn s).Follows k
      { n with
        server := { n.server with clients := Function.update n.server.clients i conn }
        handlers := Function.update n.handlers i true
        clientFds := Function.update n.clientFds i conn.fd
        clientCount := n.clientCount + 1
        asked } := by
  have hclients : Function.update s.clients i conn = Function.update n.server.clients i conn := by rw [h.clients]
  have hfds : Function.update s.clientFds i conn.fd = Function.update n.clientFds i conn.fd := by rw [h.clientFds]
  refine ⟨⟨hclients, hfds, congrArg (· + 1) h.clientCount⟩, h.running, h.place, fun j hj hmax => ?_, fun j hj hmax => ?_⟩
  all_goals by_cases hji : j = i
  · subst hji
    show Function.update s.threads j s.handlers.count j < s.handlers.count + 1 ∧
      ((s.handlers.spawn _ _).tag (Function.update s.threads j s.handlers.count j)).slot = j
    rw [Function.update_self, Threads.spawn_tag_self]
    exact ⟨Nat.lt_succ_self _, rfl⟩
  · simp only [Function.update_of_ne hji] at hj
    obtain ⟨hlt, hslot⟩ := h.created j hj hmax
    show Function.update s.threads i s.handlers.count j < s.handlers.count + 1 ∧
      ((s.handlers.spawn _ _).tag (Function.update s.threads i s.handlers.count j)).slot = j
    rw [Function.update_of_ne hji, Threads.spawn_tag_of_ne (Nat.ne_of_lt hlt)]
    exact ⟨Nat.lt_succ_of_lt hlt, hslot⟩
  · subst hji
    show (s.handlers.spawn _ _).place (Function.update s.threads j s.handlers.count j) = .exited ↔
      Function.update n.handlers j true j = false
    rw [Function.update_self, Function.update_self]
    refine iff_of_false (fun hover => ?_) Bool.noConfusion
    exact HandlerPlace.noConfusion ((Function.update_self ..).symm.trans hover)
  · simp only [Function.update_of_ne hji] at hj
    show (s.handlers.spawn _ _).place (Function.update s.threads i s.handlers.count j) = .exited ↔
      Function.update n.handlers i true j = false
    rw [Function.update_of_ne hji, Function.update_of_ne hji, Threads.spawn_place_of_ne (Nat.ne_of_lt (h.created j hj hmax).1)]
    exact h.handlers j hj hmax

theorem storeClient_follows (h : s.Follows k n) (cycle : Nat) (clientFd : Int) (thread : Bool) :
    (storeClient cycle clientFd thread s).Follows k { acceptClient clientFd thread n with place := n.place } := by
  unfold storeClient acceptClient takeClient
  rw [h.clients, h.clientCount]
  by_cases hfd : clientFd < 0
  · rw [if_pos hfd, if_pos hfd]
    exact h
  rw [if_neg hfd, if_neg hfd]
  by_cases hfull : n.clientCount < MAX_CONNECTIONS
  · rw [if_pos hfull, if_pos hfull]
    cases freeSlot n.server.clients with
    | none => exact h
    | some i =>
      cases thread with
      | true =>
        simp only [createHandler, if_true, Function.update_self]
        exact h.enrol cycle i _ _
      | false =>
        simp only [createHandler, Bool.false_eq_true, if_false, Function.update_self, Function.update_idem]
        exact h.setClient i _ (fun hno => absurd rfl hno) _
  · rw [if_neg hfull, if_neg hfull]
    exact h

/-- The thread frees every slot and comes to its loop. -/
theorem initialises_follows (h : s.Agrees n) (hrunning : s.running = n.running) (hk : s.networks.place k = .initialising)
    (clientFd : Int) (ok : Bool) : (networkThreadStep s k clientFd ok).Follows k { initSlots n with place := .looking } := by
  have hagrees := initClients_agrees h
  have hfree : ∀ i, i < MAX_CONNECTIONS → ((initSlots n).server.clients i).fd = -1 := fun i hi => by
    simp only [initSlots, if_pos hi]
  simp only [networkThreadStep, hk]
  exact ⟨⟨hagrees.clients, hagrees.clientFds, hagrees.clientCount⟩, hrunning, congrArg NetworkPlace.acceptor Threads.go_place_self,
    fun i hused hi => absurd (hfree i hi) hused, fun i hused hi => absurd (hfree i hi) hused⟩

theorem accepts_follows (h : s.Follows k n) (hk : s.networks.place k = .accepting) (clientFd : Int) (ok : Bool) :
    (networkThreadStep s k clientFd ok).Follows k (Run.run networkStep n [.accept clientFd, .create ok]) := by
  have hplace : n.place = .accepting := h.at_place hk rfl
  have hrun : Run.run networkStep n [.accept clientFd, .create ok] = { acceptClient clientFd ok n with place := .looking } := by
    rw [← (acceptClient_looks clientFd ok n).1]
    simp only [Run.run, List.foldl_cons, List.foldl_nil, networkStep, if_pos hplace, acceptClient]
  rw [hrun]
  simp only [networkThreadStep, hk]
  exact (storeClient_follows h _ clientFd ok).goes rfl

theorem closes_follows {i : Nat} (h : s.Follows k n) (hk : s.networks.place k = .closing i) (clientFd : Int) (ok : Bool) :
    (networkThreadStep s k clientFd ok).Follows k (networkStep n .close) := by
  have hplace : n.place = .closing i := h.at_place hk rfl
  simp only [networkThreadStep, hk, networkStep, closeStep, hplace, h.clients]
  by_cases hi : i < MAX_CONNECTIONS
  · rw [if_pos hi, if_pos hi]
    by_cases hfree : (n.server.clients i).fd = -1
    · rw [if_pos hfree, if_pos hfree]
      exact h.goes rfl
    · rw [if_neg hfree, if_neg hfree]
      exact (h.setClient i _ (fun _ => hfree) n.asked).goes rfl
  · rw [if_neg hi, if_neg hi]
    have hgoes := h.goes (p := .exited) rfl
    exact ⟨⟨rfl, hgoes.clientFds, rfl⟩, hgoes.running, hgoes.place, hgoes.created, hgoes.handlers⟩

/-- The join returns in both when the handler has. -/
theorem joins_follows {i : Nat} (h : s.Follows k n) (hk : s.networks.place k = .joining i) (hi : i < MAX_CONNECTIONS)
    (hused : (n.server.clients i).fd ≠ -1) (clientFd : Int) (ok : Bool) :
    (networkThreadStep s k clientFd ok).Follows k (networkStep n .close) := by
  have hplace : n.place = .joining i := h.at_place hk rfl
  have hover := h.handlers i hused hi
  simp only [networkThreadStep, hk, networkStep, closeStep, hplace, hover]
  cases hwaits : n.handlers i with
  | true =>
    simp only [if_true, Bool.true_eq_false, if_false]
    exact h
  | false =>
    simp only [if_true, Bool.false_eq_true, if_false]
    rw [h.clients]
    have hfreed := h.setClient i { n.server.clients i with fd := -1 } (fun hno => absurd rfl hno) n.asked
    have hclosed : ({ s.setClient i { n.server.clients i with fd := -1 } with clientFds := Function.update s.clientFds i (-1) } :
        Lifecycle).Follows k { n with
          server := { n.server with clients := Function.update n.server.clients i { n.server.clients i with fd := -1 } }
          clientFds := Function.update n.clientFds i (-1) } :=
      ⟨⟨hfreed.clients, congrArg (Function.update · i (-1)) h.clientFds, h.clientCount⟩, h.running, h.place, hfreed.created,
        hfreed.handlers⟩
    exact hclosed.goes rfl

/-- A slot is joined that is in use. -/
def Joins (n : Network) : Prop := ∀ i, n.place = .joining i → i < MAX_CONNECTIONS ∧ (n.server.clients i).fd ≠ -1

theorem networkThread_follows (h : s.Follows k n) (hjoins : Joins n) (clientFd : Int) (ok : Bool) :
    (networkThreadStep s k clientFd ok).Follows k (Run.run networkStep n (networkEvents clientFd ok (s.networks.place k))) := by
  cases hk : s.networks.place k with
  | opening => exact absurd (h.place.symm.trans (congrArg _ hk)) nofun
  | initialising => exact absurd (h.place.symm.trans (congrArg _ hk)) nofun
  | looking =>
    have hplace : n.place = .looking := h.at_place hk rfl
    have hgoes : (if s.running then NetworkPlace.accepting else .closing 0).acceptor =
        some (if n.running then .accepting else .closing 0) := by
      rw [h.running]
      cases n.running <;> rfl
    simp only [networkThreadStep, hk, networkEvents, Run.run, List.foldl_cons, List.foldl_nil, networkStep, if_pos hplace]
    exact h.touch.goes hgoes
  | accepting => exact accepts_follows h hk clientFd ok
  | closing i => exact closes_follows h hk clientFd ok
  | joining i =>
    obtain ⟨hi, hused⟩ := hjoins i (h.at_place hk rfl)
    exact joins_follows h hk hi hused clientFd ok
  | exited =>
    simp only [networkThreadStep, hk]
    exact h

theorem joins_close (h : Joins n) : Joins (networkStep n .close) := by
  intro i hi
  cases hp : n.place with
  | closing j =>
    simp only [networkStep, closeStep, hp] at hi ⊢
    by_cases hmax : j < MAX_CONNECTIONS
    · rw [if_pos hmax] at hi ⊢
      by_cases hfree : (n.server.clients j).fd = -1
      · rw [if_pos hfree] at hi
        cases hi
      · rw [if_neg hfree] at hi ⊢
        cases hi
        simp only [Function.update_self]
        exact ⟨hmax, hfree⟩
    · rw [if_neg hmax] at hi
      cases hi
  | joining j =>
    simp only [networkStep, closeStep, hp] at hi ⊢
    by_cases hwaits : n.handlers j = true
    · rw [if_pos hwaits] at hi ⊢
      exact h i hi
    · rw [if_neg hwaits] at hi
      cases hi
  | _ =>
    simp only [networkStep, closeStep, hp] at hi ⊢
    exact h i (hp.trans hi)

theorem joins_run (h : s.Follows k n) (hjoins : Joins n) (clientFd : Int) (ok : Bool) :
    Joins (Run.run networkStep n (networkEvents clientFd ok (s.networks.place k))) := by
  cases hk : s.networks.place k with
  | looking =>
    intro i hi
    simp only [networkEvents, Run.run, List.foldl_cons, List.foldl_nil, networkStep, if_pos (h.at_place hk rfl)] at hi
    split at hi <;> cases hi
  | accepting =>
    intro i hi
    simp only [networkEvents, Run.run, List.foldl_cons, List.foldl_nil, networkStep, if_pos (h.at_place hk rfl)] at hi
    cases (acceptClient_looks clientFd ok n).1.symm.trans hi
  | closing i => exact joins_close hjoins
  | joining i => exact joins_close hjoins
  | _ => exact hjoins

/-- Handler `t` comes to `p`: its slot, if it still has one, loses it when it returns. -/
theorem Follows.handlerGo (h : s.Follows k n) (hjoins : Joins n) {t : Nat} (ht : s.handlers.place t ≠ .exited) (p : HandlerPlace) :
    ∃ es, (s.handlerGo t p).Follows k (Run.run networkStep n es) ∧ Joins (Run.run networkStep n es) := by
  have hother : ∀ j, s.threads j ≠ t → (s.handlers.go t p).place (s.threads j) = s.handlers.place (s.threads j) :=
    fun j hj => Threads.go_place_of_ne hj
  by_cases hleaves : p = .exited ∧ ∃ i, (n.server.clients i).fd ≠ -1 ∧ i < MAX_CONNECTIONS ∧ s.threads i = t
  · obtain ⟨rfl, i, hused, hi, rfl⟩ := hleaves
    refine ⟨[.disconnect i], ⟨⟨h.clients, h.clientFds, h.clientCount⟩, h.running, h.place, h.created, fun j hj hmax => ?_⟩, hjoins⟩
    show (s.handlers.go (s.threads i) .exited).place (s.threads j) = .exited ↔ Function.update n.handlers i false j = false
    by_cases hji : j = i
    · subst hji
      rw [Threads.go_place_self, Function.update_self]
      exact iff_of_true rfl rfl
    · have hne : s.threads j ≠ s.threads i := by
        intro he
        have hslot := (h.created j hj hmax).2
        rw [he, (h.created i hused hi).2] at hslot
        exact hji hslot.symm
      rw [hother j hne, Function.update_of_ne hji]
      exact h.handlers j hj hmax
  · refine ⟨[], ⟨⟨h.clients, h.clientFds, h.clientCount⟩, h.running, h.place, h.created, fun j hj hmax => ?_⟩, hjoins⟩
    show (s.handlers.go t p).place (s.threads j) = .exited ↔ n.handlers j = false
    by_cases hjt : s.threads j = t
    · have hgoes : p ≠ .exited := fun hp => hleaves ⟨hp, j, hj, hmax, hjt⟩
      rw [← h.handlers j hj hmax, hjt, Threads.go_place_self]
      exact iff_of_false hgoes ht
    · rw [hother j hjt]
      exact h.handlers j hj hmax

theorem touch_handlers (s : Lifecycle) : s.touch.handlers = s.handlers := by
  unfold Lifecycle.touch
  split <;> rfl

theorem handlerThread_follows (h : s.Follows k n) (hjoins : Joins n) (t : Nat) (received : Received) (found : Bool) :
    ∃ es, (handlerThreadStep s t received found).Follows k (Run.run networkStep n es) ∧ Joins (Run.run networkStep n es) := by
  cases ht : s.handlers.place t with
  | looking =>
    have hthere : s.handlers.place t ≠ .exited := by simp [ht]
    simp only [handlerThreadStep, ht]
    exact h.handlerGo hjoins hthere _
  | receiving =>
    have hthere : s.handlers.place t ≠ .exited := by simp [ht]
    simp only [handlerThreadStep, ht]
    cases received with
    | nothing => exact h.handlerGo hjoins hthere _
    | kept => exact h.handlerGo hjoins hthere _
    | toPublish => exact h.handlerGo hjoins hthere _
  | searching =>
    have hthere : s.touch.handlers.place t ≠ .exited := by simp [touch_handlers, ht]
    simp only [handlerThreadStep, ht]
    exact h.touch.handlerGo hjoins hthere _
  | publishing =>
    have hthere : s.touch.handlers.place t ≠ .exited := by simp [touch_handlers, ht]
    simp only [handlerThreadStep, ht]
    exact h.touch.handlerGo hjoins hthere _
  | exited =>
    simp only [handlerThreadStep, ht]
    exact ⟨[], h, hjoins⟩

/-- A step of network thread `k`, a handler or the event loop, or a stop that is called. -/
def Within (k : Nat) : LifecycleEvent → Prop
  | .network k' _ _ => k' = k
  | .handler _ _ _ | .loop _ _ | .stop _ => True
  | .start _ | .free _ | .step _ _ => False

theorem lifecycle_follows (h : s.Follows k n) (hjoins : Joins n) {e : LifecycleEvent} (he : Within k e) :
    ∃ es, (lifecycleStep s e).Follows k (Run.run networkStep n es) ∧ Joins (Run.run networkStep n es) := by
  cases e with
  | network k' clientFd ok =>
    cases he
    exact ⟨_, networkThread_follows h hjoins clientFd ok, joins_run h hjoins clientFd ok⟩
  | handler t received found => exact handlerThread_follows h hjoins t received found
  | loop j due =>
    refine ⟨[], ?_, hjoins⟩
    have hgo : ∀ {s' : Lifecycle} (p : LoopPlace), s'.Follows k n → (s'.loopGo j p).Follows k n := fun p h' =>
      ⟨⟨h'.clients, h'.clientFds, h'.clientCount⟩, h'.running, h'.place, h'.created, h'.handlers⟩
    show (eventLoopStep s j due).Follows k n
    unfold eventLoopStep
    split
    · exact hgo _ h.touch
    · split
      · exact hgo _ h.touch
      · exact hgo _ h
    · exact h
  | stop t =>
    show ∃ es, (brokerStopCalled s t).Follows k (Run.run networkStep n es) ∧ Joins (Run.run networkStep n es)
    unfold brokerStopCalled
    split
    · split
      · exact ⟨[.stop], ⟨⟨h.clients, h.clientFds, h.clientCount⟩, rfl, h.place, h.created, h.handlers⟩, hjoins⟩
      · exact ⟨[], h, hjoins⟩
    · exact ⟨[], h, hjoins⟩
  | start t => exact he.elim
  | free t => exact he.elim
  | step t ok => exact he.elim

/-- Every run of a broker's threads is, for the client table, one of `Network`. -/
theorem lifecycle_run_follows (h : s.Follows k n) (hjoins : Joins n) (events : List LifecycleEvent) (hwithin : ∀ e ∈ events, Within k e) :
    ∃ es, (Run.run lifecycleStep s events).Follows k (Run.run networkStep n es) := by
  induction events generalizing s n with
  | nil => exact ⟨[], h⟩
  | cons e events ih =>
    obtain ⟨es, hstep, hjoins'⟩ := lifecycle_follows h hjoins (hwithin e List.mem_cons_self)
    obtain ⟨es', hrun⟩ := ih hstep hjoins' fun e' he' => hwithin e' (List.mem_cons_of_mem e he')
    exact ⟨es ++ es', by rw [Run.run_append]; exact hrun⟩

end Follows

/-! ## What a stop is for -/

/-- The threads created in cycle `c` have all returned. -/
structure CycleOver (s : Lifecycle) (c : Nat) : Prop where
  networks : ∀ k, s.networks.tag k = c → s.networks.place k = .exited
  loops : ∀ j, s.loops.tag j = c → s.loops.place j = .exited
  handlers : ∀ h, (s.handlers.tag h).cycle = c → s.handlers.place h = .exited

structure WellStopped (s : Lifecycle) : Prop where
  stopped : ∀ t free c, s.calls t = .stopped free c → s.CycleOver c
  late : s.late = 0
  network : s.networks.AtMostOne .exited

/-- No two calls overlap, and the network thread has returned by the time a join of the
    event loop does, or a start or a free finds the broker not running. -/
def InTurn (s : Lifecycle) : LifecycleEvent → Prop
  | .start t =>
    s.calls t = .idle → s.freed = false → s.running = false → (∀ u, s.calls u = .idle) ∧ s.networks.AllOver .exited
  | .stop t => s.calls t = .idle → s.freed = false → s.running = true → ∀ u, s.calls u = .idle
  | .free t =>
    s.calls t = .idle → s.freed = false → (∀ u, s.calls u = .idle) ∧ (s.running = false → s.networks.AllOver .exited)
  | .step t _ =>
    ∀ free c j, s.calls t = .joining free c → s.eventLoopThread = some j → s.loops.place j = .exited →
      s.networks.AllOver .exited
  | .network _ _ _ | .loop _ _ | .handler _ _ _ => True

/-! ## The invariant -/

/-- At most the event loop whose handle is kept has not returned. -/
def LoopKept (s : Lifecycle) : Prop := ∃ j, s.eventLoopThread = some j ∧ ∀ i, s.loops.place i ≠ .exited → i = j

/-- What holds of the broker where the call in progress is at a place. -/
def Fits (s : Lifecycle) : ApiPlace → Prop
  | .idle =>
    (s.running = true → s.LoopKept) ∧ (s.running = false → s.loops.AllOver .exited) ∧
      (s.freed = true → s.running = false ∧ s.networks.AllOver .exited)
  | .creatingNetwork =>
    s.freed = false ∧ s.running = true ∧ s.loops.AllOver .exited ∧ s.networks.AllOver .exited
  | .creatingLoop => s.freed = false ∧ s.running = true ∧ s.loops.AllOver .exited
  | .failingStart => s.freed = false ∧ s.loops.AllOver .exited
  | .stopping => s.freed = false ∧ s.running = true ∧ s.LoopKept
  | .joining _ _ => s.freed = false ∧ s.running = false ∧ s.LoopKept
  | .stopped _ _ | .releasing =>
    s.freed = false ∧ s.running = false ∧ s.loops.AllOver .exited ∧ s.networks.AllOver .exited

/-- A network thread at the place has the client in slot `i` to close yet. -/
def Guards : NetworkPlace → Nat → Prop
  | .looking, _ | .accepting, _ => True
  | .closing j, i | .joining j, i => j ≤ i
  | .opening, _ | .initialising, _ | .exited, _ => False

/-- The handler's slot is in use and has its handle, and a network thread is to join it. -/
structure Guarded (s : Lifecycle) (h : Nat) : Prop where
  slot : (s.handlers.tag h).slot < MAX_CONNECTIONS
  handle : s.threads (s.handlers.tag h).slot = h
  inUse : (s.clients (s.handlers.tag h).slot).fd ≠ -1
  guard : ∃ k, Guards (s.networks.place k) (s.handlers.tag h).slot

structure Orderly (s : Lifecycle) (holder : Option Nat) : Prop where
  single : Lock.Excludes (· ≠ .idle) holder s.calls
  fits : s.Fits (Lock.current .idle holder s.calls)
  network : s.networks.AtMostOne .exited
  handlers : ∀ h, s.handlers.place h ≠ .exited → s.Guarded h
  late : s.late = 0

variable {s s' : Lifecycle} {holder : Option Nat} {t k i c : Nat} {p : ApiPlace} {q : NetworkPlace}

theorem Fits.freed_over (h : s.Fits p) (hfreed : s.freed = true) : s.networks.AllOver .exited ∧ s.loops.AllOver .exited := by
  cases p with
  | idle => exact ⟨(h.2.2 hfreed).2, h.2.1 (h.2.2 hfreed).1⟩
  | creatingNetwork | creatingLoop | failingStart | stopping | joining | stopped | releasing =>
    exact Bool.noConfusion (h.1.symm.trans hfreed)

/-- Threads only return. -/
theorem Fits.of_threads (h : s.Fits p) (hrunning : s'.running = s.running) (hfreed : s'.freed = s.freed)
    (hevent : s'.eventLoopThread = s.eventLoopThread)
    (hloops : ∀ j, s'.loops.place j ≠ .exited → s.loops.place j ≠ .exited)
    (hnetworks : s.networks.AllOver .exited → s'.networks.AllOver .exited) : s'.Fits p := by
  have hkept : s.LoopKept → s'.LoopKept := fun ⟨j, hj, honly⟩ => ⟨j, hevent.trans hj, fun i hi => honly i (hloops i hi)⟩
  have hover : s.loops.AllOver .exited → s'.loops.AllOver .exited := fun hall j => by
    by_contra hj
    exact hloops j hj (hall j)
  cases p with
  | idle =>
    refine ⟨fun hr => hkept (h.1 (hrunning ▸ hr)), fun hr => hover (h.2.1 (hrunning ▸ hr)), fun hf => ?_⟩
    obtain ⟨hr, hall⟩ := h.2.2 (hfreed ▸ hf)
    exact ⟨hrunning.trans hr, hnetworks hall⟩
  | creatingNetwork => exact ⟨hfreed.trans h.1, hrunning.trans h.2.1, hover h.2.2.1, hnetworks h.2.2.2⟩
  | creatingLoop => exact ⟨hfreed.trans h.1, hrunning.trans h.2.1, hover h.2.2⟩
  | failingStart => exact ⟨hfreed.trans h.1, hover h.2⟩
  | stopping | joining => exact ⟨hfreed.trans h.1, hrunning.trans h.2.1, hkept h.2.2⟩
  | stopped | releasing => exact ⟨hfreed.trans h.1, hrunning.trans h.2.1, hover h.2.2.1, hnetworks h.2.2.2⟩

/-- Without a network thread there are no handlers. -/
theorem Orderly.handlersOver (h : s.Orderly holder) (hall : s.networks.AllOver .exited) : s.handlers.AllOver .exited := by
  intro i
  by_contra hi
  obtain ⟨k, hk⟩ := (h.handlers i hi).guard
  rw [hall k] at hk
  exact hk

theorem setClient_of_ne {conn : ClientConnection} {j : Nat} (h : j ≠ i) : (s.setClient i conn).clients j = s.clients j :=
  Function.update_of_ne h ..

theorem setClient_self (conn : ClientConnection) : (s.setClient i conn).clients i = conn := Function.update_self ..

theorem setClient_fd (conn : ClientConnection) (h : conn.fd = (s.clients i).fd) (j : Nat) :
    ((s.setClient i conn).clients j).fd = (s.clients j).fd := by
  by_cases hj : j = i
  · subst hj
    rw [setClient_self]
    exact h
  · rw [setClient_of_ne hj]

theorem touch_of_not_freed (h : s.freed = false) : s.touch = s := by
  simp only [touch, h, Bool.false_eq_true, if_false]

theorem Orderly.wellStopped (h : s.Orderly holder) : s.WellStopped where
  stopped t free c ht := by
    have hholder : holder = some t := (h.single t).mp (by rw [ht]; exact ApiPlace.noConfusion)
    have hfits := h.fits
    rw [hholder, Lock.current_some, ht] at hfits
    have hhandlers := h.handlersOver hfits.2.2.2
    exact ⟨fun k _ => hfits.2.2.2 k, fun j _ => hfits.2.2.1 j, fun i _ => hhandlers i⟩
  late := h.late
  network := h.network

/-! ### The threads' steps -/

/-- A thread about to return is there only while the broker is. -/
theorem Orderly.notFreed (h : s.Orderly holder) (halive : (∃ k, s.networks.place k ≠ .exited) ∨ (∃ j, s.loops.place j ≠ .exited) ∨
    ∃ i, s.handlers.place i ≠ .exited) : s.freed = false := by
  cases hfreed : s.freed with
  | false => rfl
  | true =>
    obtain ⟨hnetworks, hloops⟩ := h.fits.freed_over hfreed
    rcases halive with ⟨k, hk⟩ | ⟨j, hj⟩ | ⟨i, hi⟩
    · exact absurd (hnetworks k) hk
    · exact absurd (hloops j) hj
    · exact absurd (h.handlersOver hnetworks i) hi

theorem Orderly.loopGo {q : LoopPlace} (h : s.Orderly holder) (hk : s.loops.place k ≠ .exited) : (s.loopGo k q).Orderly holder where
  single := h.single
  fits := h.fits.of_threads rfl rfl rfl (fun _ => Threads.of_go hk) id
  network := h.network
  handlers i hi := ⟨(h.handlers i hi).slot, (h.handlers i hi).handle, (h.handlers i hi).inUse, (h.handlers i hi).guard⟩
  late := h.late

theorem eventLoopStep_orderly (h : s.Orderly holder) (j : Nat) (due : Bool) : (eventLoopStep s j due).Orderly holder := by
  unfold eventLoopStep
  cases hj : s.loops.place j with
  | looking =>
    have halive : s.loops.place j ≠ .exited := by simp [hj]
    simp only [touch_of_not_freed (h.notFreed (Or.inr (Or.inl ⟨j, halive⟩)))]
    exact h.loopGo halive
  | timing =>
    have halive : s.loops.place j ≠ .exited := by simp [hj]
    simp only [touch_of_not_freed (h.notFreed (Or.inr (Or.inl ⟨j, halive⟩))), ite_self]
    exact h.loopGo halive
  | exited => exact h

theorem Orderly.handlerGo {q : HandlerPlace} (h : s.Orderly holder) (hk : s.handlers.place k ≠ .exited) :
    (s.handlerGo k q).Orderly holder where
  single := h.single
  fits := h.fits.of_threads rfl rfl rfl (fun _ => id) id
  network := h.network
  handlers i hi := by
    have hguarded := h.handlers i (Threads.of_go hk hi)
    exact ⟨hguarded.slot, hguarded.handle, hguarded.inUse, hguarded.guard⟩
  late := h.late

theorem handlerThreadStep_orderly (h : s.Orderly holder) (i : Nat) (received : Received) (found : Bool) :
    (handlerThreadStep s i received found).Orderly holder := by
  unfold handlerThreadStep
  cases hi : s.handlers.place i with
  | looking =>
    have halive : s.handlers.place i ≠ .exited := by simp [hi]
    exact h.handlerGo halive
  | receiving =>
    have halive : s.handlers.place i ≠ .exited := by simp [hi]
    cases received with
    | nothing | kept | toPublish => exact h.handlerGo halive
  | searching | publishing =>
    have halive : s.handlers.place i ≠ .exited := by simp [hi]
    simp only [touch_of_not_freed (h.notFreed (Or.inr (Or.inr ⟨i, halive⟩)))]
    exact h.handlerGo halive
  | exited => exact h

/-- The network thread goes on; what the handlers rely on is for the step to say. -/
theorem Orderly.network_step (h : s.Orderly holder) (hk : s.networks.place k ≠ .exited) (hcalls : s'.calls = s.calls)
    (hrunning : s'.running = s.running) (hfreed : s'.freed = s.freed) (hevent : s'.eventLoopThread = s.eventLoopThread)
    (hloops : s'.loops = s.loops) (hnetworks : s'.networks = s.networks.go k q) (hlate : s'.late = s.late)
    (hhandlers : ∀ i, s'.handlers.place i ≠ .exited → s'.Guarded i) : s'.Orderly holder where
  single := by
    rw [hcalls]
    exact h.single
  fits := by
    rw [hcalls]
    exact h.fits.of_threads hrunning hfreed hevent (fun j hj => hloops ▸ hj) fun hall => absurd (hall k) hk
  network := by
    rw [hnetworks]
    exact h.network.go hk
  handlers := hhandlers
  late := hlate.trans h.late

/-- The handlers there are while the network thread is at a place are those it guards there. -/
theorem Orderly.guarded_by (h : s.Orderly holder) (hk : s.networks.place k ≠ .exited) (hi : s.handlers.place i ≠ .exited) :
    Guards (s.networks.place k) (s.handlers.tag i).slot := by
  obtain ⟨j, hj⟩ := (h.handlers i hi).guard
  have hjalive : s.networks.place j ≠ .exited := by
    intro he
    rw [he] at hj
    exact hj
  rwa [h.network j k hjalive hk] at hj

/-- Where only the client table changes, in slots the handlers are not in. -/
theorem guarded_at {j : Nat} (h : s.Orderly holder) (hj : s.handlers.place j ≠ .exited)
    (hhandlers : s'.handlers.tag j = s.handlers.tag j) (hthreads : s'.threads (s.handlers.tag j).slot = s.threads (s.handlers.tag j).slot)
    (hclients : (s'.clients (s.handlers.tag j).slot).fd = (s.clients (s.handlers.tag j).slot).fd)
    (hnetworks : s'.networks = s.networks.go k q) (hguards : Guards q (s.handlers.tag j).slot) : s'.Guarded j := by
  have hguarded := h.handlers j hj
  refine ⟨?_, ?_, ?_, k, ?_⟩
  · rw [hhandlers]
    exact hguarded.slot
  · rw [hhandlers, hthreads]
    exact hguarded.handle
  · rw [hhandlers, hclients]
    exact hguarded.inUse
  · rw [hhandlers, hnetworks, Threads.go_place_self]
    exact hguards

/-- The thread's own steps, from one place to the next. -/
theorem Orderly.networkGo (h : s.Orderly holder) (hk : s.networks.place k ≠ .exited)
    (hguards : ∀ i, s.handlers.place i ≠ .exited → Guards (s.networks.place k) (s.handlers.tag i).slot →
      Guards q (s.handlers.tag i).slot) : (s.networkGo k q).Orderly holder :=
  h.network_step hk rfl rfl rfl rfl rfl rfl rfl fun i hi =>
    guarded_at h hi rfl rfl rfl rfl (hguards i hi (h.guarded_by hk hi))

theorem opening_orderly (h : s.Orderly holder) (hk : s.networks.place k = .opening) (clientFd : Int) (ok : Bool) :
    (networkThreadStep s k clientFd ok).Orderly holder := by
  simp only [networkThreadStep, hk]
  refine h.networkGo (by simp [hk]) fun i _ hguards => ?_
  rw [hk] at hguards
  exact hguards.elim

theorem initialising_orderly (h : s.Orderly holder) (hk : s.networks.place k = .initialising) (clientFd : Int) (ok : Bool) :
    (networkThreadStep s k clientFd ok).Orderly holder := by
  have halive : s.networks.place k ≠ .exited := by simp [hk]
  simp only [networkThreadStep, hk]
  refine h.network_step halive rfl rfl rfl rfl rfl rfl rfl fun i hi => ?_
  have hguards := h.guarded_by halive hi
  rw [hk] at hguards
  exact hguards.elim

theorem looking_orderly (h : s.Orderly holder) (hk : s.networks.place k = .looking) (clientFd : Int) (ok : Bool) :
    (networkThreadStep s k clientFd ok).Orderly holder := by
  have halive : s.networks.place k ≠ .exited := by simp [hk]
  simp only [networkThreadStep, hk, touch_of_not_freed (h.notFreed (Or.inl ⟨k, halive⟩))]
  refine h.networkGo halive fun i _ _ => ?_
  cases s.running with
  | true => exact trivial
  | false => exact Nat.zero_le _

theorem closing_orderly (h : s.Orderly holder) (hk : s.networks.place k = .closing i) (clientFd : Int) (ok : Bool) :
    (networkThreadStep s k clientFd ok).Orderly holder := by
  have halive : s.networks.place k ≠ .exited := by simp [hk]
  simp only [networkThreadStep, hk]
  split
  next hlt =>
    split
    next hfree =>
      -- A handler's slot is in use, so it is not slot `i`.
      refine h.networkGo halive fun j hj hguards => ?_
      rw [hk] at hguards
      refine Nat.lt_of_le_of_ne hguards fun he => (h.handlers j hj).inUse ?_
      rw [← he]
      exact hfree
    next =>
      refine h.network_step halive rfl rfl rfl rfl rfl rfl rfl fun j hj => ?_
      have hguards := h.guarded_by halive hj
      rw [hk] at hguards
      exact guarded_at h hj rfl rfl (setClient_fd { s.clients i with running := false } rfl _) rfl hguards
  next hge =>
    refine h.network_step halive rfl rfl rfl rfl rfl rfl rfl fun j hj => ?_
    have hguards := h.guarded_by halive hj
    rw [hk] at hguards
    exact absurd (Nat.lt_of_le_of_lt hguards (h.handlers j hj).slot) hge

theorem joining_orderly (h : s.Orderly holder) (hk : s.networks.place k = .joining i) (clientFd : Int) (ok : Bool) :
    (networkThreadStep s k clientFd ok).Orderly holder := by
  have halive : s.networks.place k ≠ .exited := by simp [hk]
  simp only [networkThreadStep, hk]
  split
  next hjoined =>
    refine h.network_step halive rfl rfl rfl rfl rfl rfl rfl fun j hj => ?_
    have hguards := h.guarded_by halive hj
    rw [hk] at hguards
    -- The handler in slot `i` has returned.
    have hne : (s.handlers.tag j).slot ≠ i := by
      intro he
      refine hj ?_
      have hhandle := (h.handlers j hj).handle
      rw [he] at hhandle
      rw [← hhandle]
      exact hjoined
    exact guarded_at h hj rfl rfl (congrArg ClientConnection.fd (setClient_of_ne hne)) rfl
      (Nat.lt_of_le_of_ne hguards (Ne.symm hne))
  next => exact h

theorem storeClient_cases (cycle : Nat) (clientFd : Int) (thread : Bool) (s : Lifecycle) :
    storeClient cycle clientFd thread s = s ∨
      ∃ i conn, i < MAX_CONNECTIONS ∧ (s.clients i).fd = -1 ∧
        (storeClient cycle clientFd thread s = s.setClient i conn ∨
          conn.fd ≠ -1 ∧ storeClient cycle clientFd thread s = enrol cycle i conn s) := by
  unfold storeClient
  split
  · exact Or.inl rfl
  next hfd =>
    split
    · split
      · exact Or.inl rfl
      next i hi =>
        obtain ⟨hlt, hfree⟩ := freeSlot_some hi
        cases thread with
        | true => exact Or.inr ⟨i, _, hlt, hfree, Or.inr ⟨fun he => hfd (lt_of_eq_of_lt he (by decide)), rfl⟩⟩
        | false => exact Or.inr ⟨i, _, hlt, hfree, Or.inl rfl⟩
    · exact Or.inl rfl

/-- The new handler. -/
theorem enrol_guarded {conn : ClientConnection} (hlt : i < MAX_CONNECTIONS) (hfd : conn.fd ≠ -1) :
    ((enrol c i conn s).networkGo k .looking).Guarded s.handlers.count := by
  have htag : ((enrol c i conn s).networkGo k .looking).handlers.tag s.handlers.count = ⟨c, i⟩ := Threads.spawn_tag_self
  refine ⟨?_, ?_, ?_, k, ?_⟩
  · rw [htag]
    exact hlt
  · rw [htag]
    exact Function.update_self i _ s.threads
  · rw [htag]
    exact fun he => hfd ((congrArg ClientConnection.fd (setClient_self conn)).symm.trans he)
  · rw [networkGo, Threads.go_place_self]
    trivial

/-- The handlers there were are in other slots. -/
theorem enrol_others {conn : ClientConnection} {j : Nat} (h : s.Orderly holder) (hfree : (s.clients i).fd = -1)
    (hnew : j ≠ s.handlers.count) (hj : s.handlers.place j ≠ .exited) :
    ((enrol c i conn s).networkGo k .looking).Guarded j := by
  have hother : (s.handlers.tag j).slot ≠ i := fun he => (h.handlers j hj).inUse (he ▸ hfree)
  refine guarded_at (q := .looking) h hj (Threads.spawn_tag_of_ne hnew) (Function.update_of_ne hother _ s.threads) ?_ rfl trivial
  exact congrArg ClientConnection.fd (setClient_of_ne hother)

theorem accepting_orderly (h : s.Orderly holder) (hk : s.networks.place k = .accepting) (clientFd : Int) (ok : Bool) :
    (networkThreadStep s k clientFd ok).Orderly holder := by
  have halive : s.networks.place k ≠ .exited := by simp [hk]
  simp only [networkThreadStep, hk]
  rcases storeClient_cases (s.networks.tag k) clientFd ok s with hsame | ⟨i, conn, hlt, hfree, hset | ⟨hfd, hstored⟩⟩
  · rw [hsame]
    exact h.networkGo halive fun _ _ _ => trivial
  · rw [hset]
    refine h.network_step (q := .looking) halive rfl rfl rfl rfl rfl rfl rfl fun j hj => ?_
    have hother : (s.handlers.tag j).slot ≠ i := fun he => (h.handlers j hj).inUse (he ▸ hfree)
    exact guarded_at h hj rfl rfl (congrArg ClientConnection.fd (setClient_of_ne hother)) rfl trivial
  · rw [hstored]
    refine h.network_step (q := .looking) halive rfl rfl rfl rfl rfl rfl rfl fun j hj => ?_
    by_cases hnew : j = s.handlers.count
    · subst hnew
      exact enrol_guarded hlt hfd
    · refine enrol_others h hfree hnew ?_
      rwa [← Threads.spawn_place_of_ne hnew]

theorem networkThreadStep_orderly (h : s.Orderly holder) (k : Nat) (clientFd : Int) (ok : Bool) :
    (networkThreadStep s k clientFd ok).Orderly holder := by
  cases hk : s.networks.place k with
  | opening => exact opening_orderly h hk clientFd ok
  | initialising => exact initialising_orderly h hk clientFd ok
  | looking => exact looking_orderly h hk clientFd ok
  | accepting => exact accepting_orderly h hk clientFd ok
  | closing i => exact closing_orderly h hk clientFd ok
  | joining i => exact joining_orderly h hk clientFd ok
  | exited =>
    rw [show networkThreadStep s k clientFd ok = s by simp only [networkThreadStep, hk]]
    exact h

/-! ### The calls' steps -/

/-- A call's step that leaves the network threads, the handlers and the client table. -/
theorem Orderly.call_step {holder' : Option Nat} (h : s.Orderly holder) (hsingle : Lock.Excludes (· ≠ .idle) holder' s'.calls)
    (hfits : s'.Fits (Lock.current .idle holder' s'.calls)) (hnetworks : s'.networks = s.networks)
    (hhandlers : s'.handlers = s.handlers) (hthreads : s'.threads = s.threads) (hclients : s'.clients = s.clients)
    (hlate : s'.late = s.late) : s'.Orderly holder' where
  single := hsingle
  fits := hfits
  network := by
    rw [hnetworks]
    exact h.network
  handlers i hi := by
    rw [hhandlers] at hi
    obtain ⟨hslot, hhandle, hinUse, hguard⟩ := h.handlers i hi
    rw [← hhandlers] at hslot hhandle hinUse hguard
    rw [← hthreads] at hhandle
    rw [← hclients] at hinUse
    rw [← hnetworks] at hguard
    exact ⟨hslot, hhandle, hinUse, hguard⟩
  late := hlate.trans h.late

theorem Orderly.call_begins (h : s.Orderly none) (hp : p ≠ .idle) (hcalls : s'.calls = Function.update s.calls t p)
    (hfits : s'.Fits p) (hnetworks : s'.networks = s.networks) (hhandlers : s'.handlers = s.handlers)
    (hthreads : s'.threads = s.threads) (hclients : s'.clients = s.clients) (hlate : s'.late = s.late) :
    s'.Orderly (some t) := by
  refine h.call_step ?_ ?_ hnetworks hhandlers hthreads hclients hlate
  · rw [hcalls]
    exact h.single.take hp
  · rw [hcalls, Lock.current_self]
    exact hfits

theorem Orderly.call_stays (h : s.Orderly (some t)) (hp : p ≠ .idle) (hcalls : s'.calls = Function.update s.calls t p)
    (hfits : s'.Fits p) (hnetworks : s'.networks = s.networks) (hhandlers : s'.handlers = s.handlers)
    (hthreads : s'.threads = s.threads) (hclients : s'.clients = s.clients) (hlate : s'.late = s.late) :
    s'.Orderly (some t) := by
  refine h.call_step ?_ ?_ hnetworks hhandlers hthreads hclients hlate
  · rw [hcalls]
    exact h.single.stay (iff_of_true hp ((h.single t).mpr rfl))
  · rw [hcalls, Lock.current_self]
    exact hfits

theorem Orderly.call_ends (h : s.Orderly (some t)) (hcalls : s'.calls = Function.update s.calls t .idle)
    (hfits : s'.Fits .idle) (hnetworks : s'.networks = s.networks) (hhandlers : s'.handlers = s.handlers)
    (hthreads : s'.threads = s.threads) (hclients : s'.clients = s.clients) (hlate : s'.late = s.late) : s'.Orderly none := by
  refine h.call_step ?_ hfits hnetworks hhandlers hthreads hclients hlate
  rw [hcalls]
  exact h.single.release (fun hp => hp rfl)

theorem Orderly.noCall (h : s.Orderly holder) (hidle : ∀ u, s.calls u = .idle) : holder = none := by
  cases holder with
  | none => rfl
  | some u => exact absurd (hidle u) ((h.single u).mpr rfl)

theorem brokerStartCalled_orderly (h : s.Orderly holder) (t : Nat) (hok : InTurn s (.start t)) :
    ∃ holder', (brokerStartCalled s t).Orderly holder' := by
  unfold brokerStartCalled
  split
  next hidle hfreed =>
    cases hrunning : s.running with
    | true => exact ⟨holder, h⟩
    | false =>
      obtain ⟨hnobody, hnetworks⟩ := hok hidle hfreed hrunning
      obtain rfl := h.noCall hnobody
      have hloops : s.loops.AllOver .exited := h.fits.2.1 hrunning
      exact ⟨some t, h.call_begins ApiPlace.noConfusion rfl ⟨hfreed, rfl, hloops, hnetworks⟩ rfl rfl rfl rfl rfl⟩
  next => exact ⟨holder, h⟩

theorem brokerStopCalled_orderly (h : s.Orderly holder) (t : Nat) (hok : InTurn s (.stop t)) :
    ∃ holder', (brokerStopCalled s t).Orderly holder' := by
  unfold brokerStopCalled
  split
  next hidle hfreed =>
    cases hrunning : s.running with
    | false => exact ⟨holder, h⟩
    | true =>
      obtain rfl := h.noCall (hok hidle hfreed hrunning)
      have hkept : s.LoopKept := h.fits.1 hrunning
      exact ⟨some t, h.call_begins ApiPlace.noConfusion rfl ⟨hfreed, rfl, hkept⟩ rfl rfl rfl rfl rfl⟩
  next => exact ⟨holder, h⟩

theorem brokerFreeCalled_orderly (h : s.Orderly holder) (t : Nat) (hok : InTurn s (.free t)) :
    ∃ holder', (brokerFreeCalled s t).Orderly holder' := by
  unfold brokerFreeCalled
  split
  next hidle hfreed =>
    obtain ⟨hnobody, hnetworks⟩ := hok hidle hfreed
    obtain rfl := h.noCall hnobody
    cases hrunning : s.running with
    | false =>
      have hloops : s.loops.AllOver .exited := h.fits.2.1 hrunning
      exact ⟨some t, h.call_begins ApiPlace.noConfusion rfl ⟨hfreed, hrunning, hloops, hnetworks hrunning⟩ rfl rfl rfl rfl rfl⟩
    | true =>
      have hkept : s.LoopKept := h.fits.1 hrunning
      exact ⟨some t, h.call_begins ApiPlace.noConfusion rfl ⟨hfreed, hrunning, hkept⟩ rfl rfl rfl rfl rfl⟩
  next => exact ⟨holder, h⟩

theorem Orderly.placed (h : s.Orderly (some t)) (ht : s.calls t = p) : s.Fits p := by
  rw [← ht]
  exact h.fits

/-- The network thread of the cycle that begins is the one there is. -/
theorem creatingNetwork_succeeds (h : s.Orderly (some t)) (ht : s.calls t = .creatingNetwork) : (apiStep s t true).Orderly (some t) := by
  have hfits : s.Fits .creatingNetwork := h.placed ht
  obtain ⟨hfreed, hrunning, hloops, hnetworks⟩ := hfits
  have hhandlers := h.handlersOver hnetworks
  simp only [apiStep, ht, if_true]
  refine ⟨h.single.stay (iff_of_true ApiPlace.noConfusion ((h.single t).mpr rfl)), ?_, hnetworks.spawn, ?_, h.late⟩
  · show Fits _ (Lock.current .idle (some t) (Function.update s.calls t .creatingLoop))
    rw [Lock.current_self]
    exact ⟨hfreed, hrunning, hloops⟩
  · exact fun i hi => absurd (hhandlers i) hi

/-- The event loop of the cycle that begins is the one whose handle is kept. -/
theorem creatingLoop_succeeds (h : s.Orderly (some t)) (ht : s.calls t = .creatingLoop) : (apiStep s t true).Orderly none := by
  have hfits : s.Fits .creatingLoop := h.placed ht
  obtain ⟨hfreed, hrunning, hloops⟩ := hfits
  simp only [apiStep, ht, if_true]
  refine h.call_ends rfl ⟨fun _ => ⟨s.loops.count, rfl, fun i hi => hloops.only_spawn hi⟩, fun hr => ?_, fun hf => ?_⟩ rfl rfl rfl rfl rfl
  · exact Bool.noConfusion (hrunning.symm.trans hr)
  · exact Bool.noConfusion (hfreed.symm.trans hf)

theorem failingStart_orderly (h : s.Orderly (some t)) (ht : s.calls t = .failingStart) (ok : Bool) : (apiStep s t ok).Orderly none := by
  have hfits : s.Fits .failingStart := h.placed ht
  obtain ⟨hfreed, hloops⟩ := hfits
  simp only [apiStep, ht, touch_of_not_freed hfreed]
  refine h.call_ends rfl ⟨Bool.noConfusion, fun _ => hloops, fun hf => ?_⟩ rfl rfl rfl rfl rfl
  exact Bool.noConfusion (hfreed.symm.trans hf)

/-- The join returns with the event loop over, and by then the network thread is. -/
theorem join_orderly {free : Bool} (h : s.Orderly (some t)) (ht : s.calls t = .joining free c) (ok : Bool)
    (hok : InTurn s (.step t ok)) : (apiStep s t ok).Orderly (some t) := by
  have hfits : s.Fits (.joining free c) := h.placed ht
  obtain ⟨hfreed, hrunning, j, hj, honly⟩ := hfits
  simp only [apiStep, ht, hj]
  split
  next hover =>
    have hloops : s.loops.AllOver .exited := by
      intro i
      by_contra hi
      rw [honly i hi] at hi
      exact hi hover
    have hnetworks := hok free c j ht hj hover
    exact h.call_stays (p := .stopped free c) ApiPlace.noConfusion rfl ⟨hfreed, hrunning, hloops, hnetworks⟩ rfl rfl rfl rfl rfl
  next => exact h

theorem stopping_orderly (h : s.Orderly (some t)) (ht : s.calls t = .stopping) (ok : Bool) : (apiStep s t ok).Orderly (some t) := by
  have hfits : s.Fits .stopping := h.placed ht
  obtain ⟨hfreed, hrunning, hkept⟩ := hfits
  simp only [apiStep, ht, touch_of_not_freed hfreed, hrunning, if_true]
  exact h.call_stays (p := .joining true s.cycle) ApiPlace.noConfusion rfl ⟨hfreed, rfl, hkept⟩ rfl rfl rfl rfl rfl

theorem stopped_orderly {free : Bool} (h : s.Orderly (some t)) (ht : s.calls t = .stopped free c) (ok : Bool) :
    ∃ holder', (apiStep s t ok).Orderly holder' := by
  have hfits : s.Fits (.stopped free c) := h.placed ht
  simp only [apiStep, ht]
  cases free with
  | true => exact ⟨some t, h.call_stays (p := .releasing) ApiPlace.noConfusion rfl hfits rfl rfl rfl rfl rfl⟩
  | false =>
    obtain ⟨hfreed, hrunning, hloops, -⟩ := hfits
    refine ⟨none, h.call_ends rfl ⟨fun hr => ?_, fun _ => hloops, fun hf => ?_⟩ rfl rfl rfl rfl rfl⟩
    · exact Bool.noConfusion (hrunning.symm.trans hr)
    · exact Bool.noConfusion (hfreed.symm.trans hf)

theorem releasing_orderly (h : s.Orderly (some t)) (ht : s.calls t = .releasing) (ok : Bool) : (apiStep s t ok).Orderly none := by
  have hfits : s.Fits .releasing := h.placed ht
  obtain ⟨hfreed, hrunning, hloops, hnetworks⟩ := hfits
  simp only [apiStep, ht, touch_of_not_freed hfreed]
  refine h.call_ends rfl ⟨fun hr => ?_, fun _ => hloops, fun _ => ⟨hrunning, hnetworks⟩⟩ rfl rfl rfl rfl rfl
  exact Bool.noConfusion (hrunning.symm.trans hr)

theorem apiStep_orderly (h : s.Orderly holder) (t : Nat) (ok : Bool) (hok : InTurn s (.step t ok)) :
    ∃ holder', (apiStep s t ok).Orderly holder' := by
  by_cases hidle : s.calls t = .idle
  · refine ⟨holder, ?_⟩
    rw [show apiStep s t ok = s by simp only [apiStep, hidle]]
    exact h
  obtain rfl : holder = some t := (h.single t).mp hidle
  cases ht : s.calls t with
  | idle => exact absurd ht hidle
  | creatingNetwork =>
    cases ok with
    | true => exact ⟨some t, creatingNetwork_succeeds h ht⟩
    | false =>
      have hfits : s.Fits .creatingNetwork := h.placed ht
      simp only [apiStep, ht, Bool.false_eq_true, if_false]
      exact ⟨some t, h.call_stays (p := .failingStart) ApiPlace.noConfusion rfl ⟨hfits.1, hfits.2.2.1⟩ rfl rfl rfl rfl rfl⟩
  | creatingLoop =>
    cases ok with
    | true => exact ⟨none, creatingLoop_succeeds h ht⟩
    | false =>
      have hfits : s.Fits .creatingLoop := h.placed ht
      simp only [apiStep, ht, Bool.false_eq_true, if_false]
      exact ⟨some t, h.call_stays (p := .failingStart) ApiPlace.noConfusion rfl ⟨hfits.1, hfits.2.2⟩ rfl rfl rfl rfl rfl⟩
  | failingStart => exact ⟨none, failingStart_orderly h ht ok⟩
  | stopping => exact ⟨some t, stopping_orderly h ht ok⟩
  | joining free c => exact ⟨some t, join_orderly h ht ok hok⟩
  | stopped free c => exact stopped_orderly h ht ok
  | releasing => exact ⟨none, releasing_orderly h ht ok⟩

/-! ## Runs -/

theorem lifecycleStep_orderly (s : Lifecycle) (e : LifecycleEvent) (h : ∃ holder, s.Orderly holder) (hok : InTurn s e) :
    ∃ holder, (lifecycleStep s e).Orderly holder := by
  obtain ⟨holder, h⟩ := h
  cases e with
  | start t => exact brokerStartCalled_orderly h t hok
  | stop t => exact brokerStopCalled_orderly h t hok
  | free t => exact brokerFreeCalled_orderly h t hok
  | step t ok => exact apiStep_orderly h t ok hok
  | network k clientFd ok => exact ⟨holder, networkThreadStep_orderly h k clientFd ok⟩
  | loop j due => exact ⟨holder, eventLoopStep_orderly h j due⟩
  | handler i received found => exact ⟨holder, handlerThreadStep_orderly h i received found⟩

theorem newLifecycle_orderly : newLifecycle.Orderly none where
  single t := iff_of_false (fun hp => hp rfl) (Option.some_ne_none t).symm
  fits := ⟨Bool.noConfusion, fun _ _ => rfl, Bool.noConfusion⟩
  network _ _ hi := absurd rfl hi
  handlers _ hi := absurd rfl hi
  late := rfl

theorem stopped_is_over (es : List LifecycleEvent) (h : Run.Along lifecycleStep InTurn newLifecycle es) :
    (Run.run lifecycleStep newLifecycle es).WellStopped := by
  obtain ⟨holder, horderly⟩ := Run.along_inv lifecycleStep_orderly ⟨none, newLifecycle_orderly⟩ h
  exact horderly.wellStopped

/-- A start, and a client accepted. -/
def serving : List LifecycleEvent := [.start 0, .step 0 true, .step 0 true] ++ List.replicate 5 (.network 0 7 true)

/-- After a stop the client leaves and `accept` returns, and the network thread is over
    before the event loop. -/
def windingUp : List LifecycleEvent :=
  List.replicate 2 (.handler 0 .nothing false) ++ List.replicate 104 (.network 0 (-1) false) ++ [.loop 0 false]

set_option maxRecDepth 4000 in
theorem stopped_is_over_when_the_client_leaves :
    (Run.run lifecycleStep newLifecycle (serving ++ .stop 0 :: windingUp ++ [.step 0 true])).WellStopped := by
  refine stopped_is_over _ ?_
  have hthreads : ∀ e ∈ windingUp, ∀ s, InTurn s e := by
    intro e he s
    simp only [windingUp, List.mem_append, List.mem_replicate, List.mem_singleton] at he
    rcases he with (⟨-, rfl⟩ | ⟨-, rfl⟩) | rfl <;> trivial
  refine Run.along_append.mpr ⟨Run.along_append.mpr ⟨?_, ?_, Run.along_of_forall hthreads⟩, ?_, trivial⟩
  · refine ⟨fun _ _ _ => ⟨fun _ => rfl, fun _ => rfl⟩, fun _ _ _ h => ApiPlace.noConfusion h, fun _ _ _ h => ApiPlace.noConfusion h, ?_⟩
    exact Run.along_of_forall fun e he _ => (List.eq_of_mem_replicate he) ▸ trivial
  · intro _ _ _ u
    cases u <;> rfl
  · intro _ _ _ _ _ _ k
    cases k with
    | zero => decide +kernel
    | succ k => rfl

/-- The network thread is in `accept`. -/
theorem a_stop_leaves_the_network_thread : ¬ ∀ es, (Run.run lifecycleStep newLifecycle es).WellStopped := by
  intro h
  have hover := (h (serving ++ [.stop 0, .loop 0 false, .step 0 true])).stopped 0 false 1 (by decide)
  exact absurd (hover.networks 0 (by decide)) (by decide)

end Lifecycle

end RabbitMQ.Core
