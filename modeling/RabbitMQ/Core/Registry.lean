/-
  RabbitMQ.Core.Registry — the broker's tables: creating queues and exchanges, binding them,
  and what runs of these and of publishes lead to.

  A queue or exchange created is at the handle of its struct's request. A second queue or
  exchange of a name is not created, but nothing keeps a queue from being bound to an
  exchange again, by the same key or by another.

  Proved: a publish puts at most one copy of its message in each queue exactly when no queue
  with room for two has two bindings that match (`adds_at_most_one_iff`,
  `a_queue_bound_twice_gets_two`).
-/

import RabbitMQ.Core.Copies
import RabbitMQ.Core.QueueRuns

namespace RabbitMQ.Core

open Lib

/-! ## The tables -/

def MAX_QUEUES : Nat := 16

/-- A server with the broker's table of queues. -/
structure Node where
  server : Server
  queueTable : List Nat
  queuesFit : queueTable.length ≤ MAX_QUEUES

/-- The first queue of that name; none inside where there is no such queue. -/
def findQueue (queues : Nat → Queue Message) (name : CString) : List Nat → Option (Option Nat)
  | [] => some none
  | q :: qs =>
    match strcmpEq (queues q).name (some name) with
    | none => none
    | some true => some (some q)
    | some false => findQueue queues name qs

/-- What `queue_create` is given and finds in memory, besides the name. -/
structure NewQueue where
  capacity : UInt64
  garbage : Nat → Message
  garbageInfo : Nat → DeliveryInfo Message
  sync : SyncInit

def Node.addQueue (n : Node) (q : Nat) (queue : Queue Message) (heap : Heap) (h : n.queueTable.length < MAX_QUEUES) : Node where
  server := { n.server with heap, queues := Function.update n.server.queues q queue }
  queueTable := n.queueTable ++ [q]
  queuesFit := by rw [List.length_append]; exact h

def brokerCreateQueue (name : Option CString) (new : NewQueue) (n : Node) : Option (Option Nat × Node) :=
  match name with
  | none => some (none, n)
  | some name =>
    match findQueue n.server.queues name n.queueTable with
    | none => none
    | some (some q) => some (some q, n)
    | some none =>
      if h : n.queueTable.length < MAX_QUEUES then
        match queueCreate (some name) new.capacity new.garbage new.garbageInfo new.sync n.server.heap with
        | (none, heap) => some (none, { n with server := { n.server with heap } })
        | (some queue, heap) => some (some n.server.heap.next, n.addQueue n.server.heap.next queue heap h)
      else some (none, n)

def Node.addExchange (n : Node) (e : Nat) (exchange : Exchange) (heap : Heap)
    (h : n.server.broker.exchanges.length < MAX_EXCHANGES) : Node :=
  { n with server := { n.server with
      heap
      exchanges := Function.update n.server.exchanges e exchange
      broker := { n.server.broker with
        exchanges := n.server.broker.exchanges ++ [e]
        exchangesFit := by rw [List.length_append]; exact h } } }

/-- `strdup` is not checked: refused, it leaves the name NULL. -/
def brokerCreateExchange (name : Option CString) (type : ExchangeType) (n : Node) : Option (Option Nat × Node) :=
  match name with
  | none => some (none, n)
  | some name =>
    match findExchange n.server.exchanges name n.server.broker.exchanges with
    | none => none
    | some (some e) => some (some e, n)
    | some none =>
      if h : n.server.broker.exchanges.length < MAX_EXCHANGES then
        match malloc n.server.heap 16 with
        | (none, heap) => some (none, { n with server := { n.server with heap } })
        | (some exchange, heap) =>
          let (dup, heap) := strdup heap name
          some (some exchange.request, n.addExchange exchange.request ⟨dup.map fun _ => name, type⟩ heap h)
      else some (none, n)

def Node.addBinding (n : Node) (b : Binding) (heap : Heap) (h : n.server.broker.bindings.length < MAX_BINDINGS) : Node :=
  { n with server := { n.server with
      heap
      broker := { n.server.broker with
        bindings := n.server.broker.bindings ++ [b]
        bindingsFit := by rw [List.length_append]; exact h } } }

/-- The key of a binding: NULL, or a copy if it was granted. -/
def dupKey (routingKey : Option CString) (h : Heap) : Option CString × Heap :=
  match routingKey with
  | none => (none, h)
  | some key => let r := strdup h key; (r.1.map fun _ => key, r.2)

def brokerBindQueue (exchange queue : Option Nat) (routingKey : Option CString) (n : Node) : Nat × Node :=
  match exchange, queue with
  | some exchange, some queue =>
    if h : n.server.broker.bindings.length < MAX_BINDINGS then
      match malloc n.server.heap 24 with
      | (none, heap) => (0, { n with server := { n.server with heap } })
      | (some _, heap) =>
        let key := dupKey routingKey heap
        (1, n.addBinding ⟨exchange, queue, key.1⟩ key.2 h)
    else (0, n)
  | _, _ => (0, n)

/-! ## Runs -/

inductive Request where
  | createQueue (name : Option CString) (new : NewQueue)
  | createExchange (name : Option CString) (type : ExchangeType)
  | bindQueue (exchange queue : Option Nat) (routingKey : Option CString)
  | publish (exchange : Nat) (message : Message)

/-- none where the call does not return. -/
def Request.apply (n : Node) : Request → Option Node
  | .createQueue name new => (brokerCreateQueue name new n).map (·.2)
  | .createExchange name type => (brokerCreateExchange name type n).map (·.2)
  | .bindQueue exchange queue routingKey => some (brokerBindQueue exchange queue routingKey n).2
  | .publish exchange message =>
    (brokerPublish exchange message n.server).map fun r => { n with server := r.2 }

/-- A broker just created: its tables are empty. Queues made elsewhere may be bound too. -/
structure Fresh (n : Node) : Prop where
  queues : n.queueTable = []
  exchanges : n.server.broker.exchanges = []
  bindings : n.server.broker.bindings = []
  slots : ∀ q, SlotsOk (n.server.queues q)

inductive Reaches (start : Node) : Node → Prop
  | start : Reaches start start
  | step {n n' : Node} (r : Request) : Reaches start n → r.apply n = some n' → Reaches start n'

/-- Whatever the calls, every queue's ring stays sound. -/
theorem request_slots {n n' : Node} {r : Request} (hs : ∀ q, SlotsOk (n.server.queues q)) (h : r.apply n = some n') :
    ∀ q, SlotsOk (n'.server.queues q) := by
  cases r with
  | createQueue name new =>
    obtain ⟨⟨made, n1⟩, h1, rfl⟩ := Option.map_eq_some_iff.mp h
    unfold brokerCreateQueue at h1
    split at h1
    · cases h1; exact hs
    split at h1
    · cases h1
    · cases h1; exact hs
    split at h1
    · cases e : queueCreate (some _) new.capacity new.garbage new.garbageInfo new.sync n.server.heap with
      | mk queue heap =>
      rw [e] at h1
      cases queue with
      | none => cases h1; exact hs
      | some queue =>
        cases h1
        intro q
        have hnew : SlotsOk queue := created_slots (congrArg Prod.fst e)
        by_cases hq : q = n.server.heap.next
        · subst hq; simpa [Node.addQueue] using hnew
        · simpa [Node.addQueue, hq] using hs q
    · cases h1; exact hs
  | createExchange name type =>
    obtain ⟨⟨made, n1⟩, h1, rfl⟩ := Option.map_eq_some_iff.mp h
    unfold brokerCreateExchange at h1
    split at h1
    · cases h1; exact hs
    split at h1
    · cases h1
    · cases h1; exact hs
    split at h1
    · split at h1
      · cases h1; exact hs
      · cases h1; exact hs
    · cases h1; exact hs
  | bindQueue exchange queue routingKey =>
    cases h
    unfold brokerBindQueue
    split
    · split
      · split
        · exact hs
        · exact hs
      · exact hs
    · exact hs
  | publish exchange message =>
    obtain ⟨⟨val, s'⟩, h1, rfl⟩ := Option.map_eq_some_iff.mp h
    rw [publish_copies] at h1
    obtain ⟨⟨s1, cs⟩, h2, e⟩ := Option.map_eq_some_iff.mp h1
    cases e
    exact (publish_appends hs h2).1.slots

theorem reaches_slots {start n : Node} (hf : Fresh start) (h : Reaches start n) : ∀ q, SlotsOk (n.server.queues q) := by
  induction h with
  | start => exact hf.slots
  | step r _ happ ih => exact request_slots ih happ

theorem run_reaches {start n : Node} {requests : List Request} (h : requests.foldlM Request.apply start = some n) :
    Reaches start n := by
  induction requests using List.reverseRecOn generalizing n with
  | nil =>
    cases h
    exact .start
  | append_singleton rs r ih =>
    rw [List.foldlM_append, Option.bind_eq_bind, Option.bind_eq_some_iff] at h
    obtain ⟨n1, h1, h2⟩ := h
    rw [List.foldlM_cons, Option.bind_eq_bind, Option.bind_eq_some_iff] at h2
    obtain ⟨n2, happ, he⟩ := h2
    cases he
    exact .step r (ih h1) happ

/-! ## Copies of one publish in one queue -/

/-- Whatever requests are refused, a publish of `m` puts at most one copy in each queue. -/
def AddsAtMostOne (exchange : Nat) (m : Message) (s : Server) : Prop :=
  ∀ fails val s', brokerPublish exchange m { s with heap := { s.heap with fails } } = some (val, s') →
    ∀ q, (ready (s'.queues q)).length ≤ (ready (s.queues q)).length + 1

theorem not_copyable_clone {m : Message} (hm : ¬ Copyable m) (h : Heap) : (messageClone m h).1 = none := by
  unfold messageClone messageCreate
  cases he : m.exchange with
  | none => rfl
  | some e =>
  cases hk : m.routingKey with
  | none => rfl
  | some k =>
    by_cases hb : m.body = none ∧ 0 < m.bodySize
    · simp only [if_pos hb]
    · exact absurd ⟨by simp [he], by simp [hk], hb⟩ hm

/-- A message that cannot be cloned is not routed. -/
theorem publish_not_copyable {exchange : Nat} {m : Message} {s s' : Server} {cs : List Stored} (hm : ¬ Copyable m)
    (h : publishCopies exchange m s = some (s', cs)) : cs = [] := by
  have hnone := not_copyable_clone hm s.heap
  rcases publishCopies_cases h with ⟨heap, -, -, rfl⟩ | ⟨clone, heap, s1, e, -, -⟩
  · rfl
  · rw [e] at hnone
    cases hnone

/-- The copies of a publish are bounded by the matches and by the room. -/
theorem publish_le {exchange : Nat} {m : Message} {s s' : Server} {cs : List Stored} (hs : ∀ q, SlotsOk (s.queues q))
    (h : publishCopies exchange m s = some (s', cs)) (q : Nat) :
    cs.countP (·.queue = q) ≤ matching s exchange m.routingKey q ∧ cs.countP (·.queue = q) ≤ room (s.queues q) := by
  obtain ⟨happ, hle⟩ := publish_appends hs h
  refine ⟨?_, ?_⟩
  · rw [← matching_hits]
    exact hle q
  · have hsize := happ.size q
    have hcap := (happ.slots q).sizeLe
    rw [happ.capacity q] at hcap
    unfold room
    omega

/-- In every state the broker can be brought to. -/
theorem adds_at_most_one_iff {start n : Node} (hf : Fresh start) (h : Reaches start n) (exchange : Nat) (m : Message) :
    AddsAtMostOne exchange m n.server ↔
      (Copyable m → ∀ q, matching n.server exchange m.routingKey q ≤ 1 ∨ room (n.server.queues q) ≤ 1) := by
  have hs := reaches_slots hf h
  constructor
  · intro hone hm q
    -- with nothing refused, the queue gets all it has room for
    have hg : ({ n.server.heap with fails := fun _ => false } : Heap).AllGranted := fun _ => rfl
    obtain ⟨s', cs, hrun, happ, hcount, -⟩ := publish_stores (s := { n.server with heap := { n.server.heap with
      fails := fun _ => false } }) hs hg hm exchange
    have hpub := publish_copies exchange m { n.server with heap := { n.server.heap with fails := fun _ => false } }
    rw [hrun] at hpub
    have hle := hone _ _ _ hpub q
    rw [happ.ready q, List.length_append, ← copiesIn, copiesIn_length, hcount q] at hle
    have hle' : min (matching n.server exchange m.routingKey q) (room (n.server.queues q)) ≤ 1 :=
      Nat.le_of_add_le_add_left hle
    exact min_le_iff.mp hle'
  · intro hcond fails val s' hpub q
    rw [publish_copies] at hpub
    obtain ⟨⟨s1, cs⟩, hrun, he⟩ := Option.map_eq_some_iff.mp hpub
    cases he
    have hs' : ∀ q, SlotsOk (({ n.server with heap := { n.server.heap with fails } } : Server).queues q) := hs
    rw [(publish_appends hs' hrun).1.ready q, List.length_append, ← copiesIn, copiesIn_length]
    refine Nat.add_le_add_left ?_ _
    by_cases hm : Copyable m
    · obtain ⟨h1, h2⟩ := publish_le hs' hrun q
      rcases hcond hm q with hc | hc
      · exact Nat.le_trans h1 hc
      · exact Nat.le_trans h2 hc
    · rw [publish_not_copyable hm hrun]
      exact Nat.zero_le _

/-- A broker just created. -/
def aNode : Node where
  server := { serverWith (fun _ => emptyQueue) [] (Nat.zero_le _) with broker := ⟨[], [], Nat.zero_le _, Nat.zero_le _⟩ }
  queueTable := []
  queuesFit := Nat.zero_le _

/-- Memory as it is found, and room for `capacity` messages. -/
def newQueue (capacity : UInt64) : NewQueue := ⟨capacity, emptyQueue.messages, emptyQueue.unackedMessages, ⟨true, true, true⟩⟩

/-- A queue, 100, of four slots and a fanout exchange, 104, that it is bound to `n` times. -/
def boundTimes (n : Nat) : List Request :=
  [.createQueue (some twoBytes.exchange) (newQueue 4), .createExchange (some twoBytes.exchange) .fanout] ++
    List.replicate n (.bindQueue (some 104) (some 100) none)

theorem aNode_fresh : Fresh aNode := ⟨rfl, rfl, rfl, fun _ => emptyQueue_ring.slots⟩

/-- Two calls of `broker_bind_queue` with the same exchange and queue. -/
theorem a_queue_bound_twice_gets_two : ∃ n, Reaches aNode n ∧ ¬ AddsAtMostOne 104 aMessage n.server := by
  have hrun : ∃ n, (boundTimes 2).foldlM Request.apply aNode = some n ∧ ∃ val s', brokerPublish 104 aMessage { n.server with heap :=
        { n.server.heap with fails := fun _ => false } } = some (val, s') ∧
        (n.server.queues 100).size.toNat = 0 ∧ (s'.queues 100).size.toNat = 2 :=
    ⟨_, rfl, _, _, rfl, by decide +kernel, by decide +kernel⟩
  obtain ⟨n, hrun, val, s', hpub, hbefore, hafter⟩ := hrun
  refine ⟨n, run_reaches hrun, ?_⟩
  intro hone
  have hle := hone _ val s' hpub 100
  rw [ready_length, ready_length, hbefore, hafter] at hle
  exact absurd hle (by decide)

theorem adds_at_most_one_when_bound_once : ∃ n, Reaches aNode n ∧ AddsAtMostOne 104 aMessage n.server := by
  have hrun : ∃ n, (boundTimes 1).foldlM Request.apply aNode = some n ∧
      n.server.broker.bindings.length = 1 := ⟨_, rfl, by decide +kernel⟩
  obtain ⟨n, hrun, hlen⟩ := hrun
  refine ⟨n, run_reaches hrun, (adds_at_most_one_iff aNode_fresh (run_reaches hrun) 104 aMessage).mpr ?_⟩
  intro _ q
  left
  calc matching n.server 104 aMessage.routingKey q ≤ n.server.broker.bindings.length := List.countP_le_length
    _ = 1 := hlen

end RabbitMQ.Core
