/-
  RabbitMQ.Core.Teardown — what the broker asks for and gives back, from `broker_create` to
  `broker_free`.

  `Estate` is the broker with the blocks of each queue, exchange and binding it made. Its
  calls create and bind, a turn of a handler thread reads a frame and acts on it, the event
  loop makes its passes; any request for memory may be refused. `lost` has the blocks that
  nothing will free: those of each message that was published as it was received, and of
  its routing clone where just one copy was stored.

  Two outcomes, and the run says which (`given_back_iff`): either every message for which a
  routing clone was made had a copy stored, and then after `broker_free` each block since
  `broker_create` has been freed exactly once, but for those in `lost`, which have not; or
  some block has been freed twice.
-/

import RabbitMQ.Core.Pushes
import RabbitMQ.Core.QueueBooks
import RabbitMQ.Core.Registries

namespace RabbitMQ.Core

open Lib

/-! ## The broker and its blocks -/

structure Estate where
  node : Node
  /-- The `Broker`. -/
  broker : Ptr
  /-- By handle, in the order they were asked for. -/
  queueBlocks : Nat → List Ptr
  exchangeBlocks : Nat → List Ptr
  bindingBlocks : List (List Ptr)
  lost : List Ptr

namespace Estate

def heap (e : Estate) : Heap := e.node.server.heap

end Estate

/-- `mutex` is the result of `pthread_mutex_init`. The size is that of a 64-bit build. -/
def brokerCreate (mutex : Bool) (n : Node) : Option Estate × Heap :=
  match malloc n.server.heap 528 with
  | (none, heap) => (none, heap)
  | (some broker, heap) =>
    if mutex then
      (some { node := { n with
                server := { n.server with heap, broker := ⟨[], [], Nat.zero_le _, Nat.zero_le _⟩ }
                queueTable := []
                queuesFit := Nat.zero_le _ }
              broker, queueBlocks := fun _ => [], exchangeBlocks := fun _ => [], bindingBlocks := [], lost := [] }, heap)
    else (none, heap.free broker)

/-- The struct, which was asked for first, is freed last. -/
def structLast : List Ptr → List Ptr
  | [] => []
  | p :: ps => ps ++ [p]

def freedWithQueue (e : Estate) (q : Nat) : List Ptr :=
  (queueFree (e.node.server.queues q)).flatMap Message.blocks ++ structLast (e.queueBlocks q)

/-- What `broker_free` frees, in order. -/
def freedAtEnd (e : Estate) : List Ptr :=
  e.node.queueTable.flatMap (freedWithQueue e) ++
    (e.node.server.broker.exchanges.flatMap (fun x => structLast (e.exchangeBlocks x)) ++
      (e.bindingBlocks.flatMap structLast ++ [e.broker]))

def brokerFree (e : Estate) : Heap := e.heap.frees (freedAtEnd e)

/-! ## The calls -/

/-- The exchange a message from client `i` is published to, if it is. -/
def publishesTo (i : Nat) (m : Message) (s : Server) : Option Nat :=
  match isRegistration m.toFields with
  | some false => if (s.clients i).isConsumer then none else (brokerGetExchange s m.exchange).getD none
  | _ => none

/-- The blocks of the routing clone. -/
def routingClone (m : Message) (s : Server) : List Ptr := held (messageClone m s.heap).1

/-- What a publish keeps without storing it. -/
def lostBy (exchange : Nat) (m : Message) (s : Server) : List Ptr :=
  m.blocks ++
    match publishCopies exchange m s with
    | some (_, [_]) => routingClone m s
    | _ => []

/-- What the turn obtains and publishes: the exchange, the message, the server by then. -/
def published (i : Nat) (h : Handler) : Option (Nat × Message × Server) :=
  if (h.server.clients i).running then
    match receiveMessageData (h.server.clients i).fd h.world with
    | (some m, w) => (publishesTo i m (h.afterRead w).server).map fun exchange => (exchange, m, (h.afterRead w).server)
    | (none, _) => none
  else none

inductive EstateEvent where
  /-- `malloc` is asked for `capacity * 8` bytes, with no overflow. -/
  | createQueue (name : Option CString) (new : NewQueue) (fits : new.capacity.toNat < 2 ^ 61)
  | createExchange (name : Option CString) (type : ExchangeType)
  /-- With handles the broker gave: those at these places of its tables, or NULL. -/
  | bindQueue (exchange queue : Nat) (routingKey : Option CString)
  /-- A turn of client `i`'s thread; what is in its socket and what the reads return. -/
  | turn (i : Nat) (inlet : Inlet) (errno : Nat)
  | timeouts (now : Int)

/-- The client's thread in its loop. -/
def Estate.handler (e : Estate) (inlet : Inlet) (errno : Nat) : Handler := ⟨e.node.server, inlet, errno, [], false⟩

namespace Estate

/-- What was granted is for the queue at the handle of its struct's request, if one was made. -/
def afterQueue (e : Estate) (node : Node) : Estate :=
  { e with node, queueBlocks := Function.update e.queueBlocks e.heap.next (e.heap.grantedSince node.server.heap) }

def afterExchange (e : Estate) (node : Node) : Estate :=
  { e with node, exchangeBlocks := Function.update e.exchangeBlocks e.heap.next (e.heap.grantedSince node.server.heap) }

def afterBinding (e : Estate) (r : Nat × Node) : Estate :=
  { e with
    node := r.2
    bindingBlocks := if r.1 = 0 then e.bindingBlocks else e.bindingBlocks ++ [e.heap.grantedSince r.2.server.heap] }

def afterTurn (e : Estate) (server : Server) (lost : List Ptr) : Estate :=
  { e with node := { e.node with server }, lost := e.lost ++ lost }

end Estate

/-- A call that does not return leaves the state as it is. -/
def estateStep (e : Estate) : EstateEvent → Estate
  | .createQueue name new _ =>
    match brokerCreateQueue name new e.node with
    | none => e
    | some (_, node) => e.afterQueue node
  | .createExchange name type =>
    match brokerCreateExchange name type e.node with
    | none => e
    | some (_, node) => e.afterExchange node
  | .bindQueue exchange queue routingKey =>
    e.afterBinding (brokerBindQueue e.node.server.broker.exchanges[exchange]? e.node.queueTable[queue]? routingKey e.node)
  | .turn i inlet errno =>
    match clientHandlerTurn i (e.handler inlet errno) with
    | none => e
    | some h => e.afterTurn h.server (((published i (e.handler inlet errno)).map fun p => lostBy p.1 p.2.1 p.2.2).getD [])
  | .timeouts now => { e with node := processTimeouts now e.node }

/-- If a routing clone is made, a copy of it is stored. -/
def CopyStored (exchange : Nat) (m : Message) (s : Server) : Prop :=
  match publishCopies exchange m s with
  | some (_, []) => routingClone m s = []
  | _ => True

instance (exchange : Nat) (m : Message) (s : Server) : Decidable (CopyStored exchange m s) := by
  unfold CopyStored
  split
  · exact inferInstanceAs (Decidable (_ = _))
  · exact isTrue trivial

def Routable (e : Estate) : EstateEvent → Prop
  | .turn i inlet errno => ∀ p ∈ published i (e.handler inlet errno), CopyStored p.1 p.2.1 p.2.2
  | _ => True

instance (e : Estate) : ∀ ev, Decidable (Routable e ev)
  | .turn i inlet errno => inferInstanceAs (Decidable (∀ p ∈ published i (e.handler inlet errno), CopyStored p.1 p.2.1 p.2.2))
  | .createQueue _ _ _ => isTrue trivial
  | .createExchange _ _ => isTrue trivial
  | .bindQueue _ _ _ => isTrue trivial
  | .timeouts _ => isTrue trivial

/-! ## What a publish keeps -/

theorem routeTo_ledger {m : Message} {b : Binding} {s s' : Server} {cs : List Stored}
    (h : routeToCopies m b s = some (s', cs)) :
    Alloc.Ledger s.heap s'.heap (cs.flatMap (·.copy.blocks)) ∧ ∀ c ∈ cs, c.queue = b.queue := by
  have hl := clone_ledger m s.heap
  rcases routeToCopies_cases h with ⟨heap, hc, rfl, rfl⟩ | ⟨clone, heap, hc, hcases⟩
  · rw [hc] at hl
    exact ⟨hl, fun _ hc => absurd hc List.not_mem_nil⟩
  rw [hc] at hl
  rcases hcases with ⟨-, rfl, rfl⟩ | ⟨-, n, rfl, hforward⟩
  · refine ⟨Alloc.Ledger.frees ?_, fun _ hc => absurd hc List.not_mem_nil⟩
    rw [List.flatMap_nil, List.append_nil]
    exact hl
  · obtain ⟨outlets, rfl⟩ := counting_outlets hforward
    refine ⟨?_, fun c hc => by rw [List.mem_singleton.mp hc]⟩
    rw [List.flatMap_singleton]
    exact hl

theorem routeCopies_ledger {exchange : Nat} {m : Message} {bs : List Binding} {s s' : Server} {cs : List Stored}
    (h : routeCopies exchange m bs s = some (s', cs)) :
    Alloc.Ledger s.heap s'.heap (cs.flatMap (·.copy.blocks)) ∧ ∀ c ∈ cs, c.queue ∈ bs.map (·.queue) := by
  induction bs generalizing s cs with
  | nil =>
    cases h
    exact ⟨Alloc.ledger_refl _, fun _ hc => absurd hc List.not_mem_nil⟩
  | cons b bs ih =>
    rcases routeCopies_cases h with ⟨-, hrest⟩ | ⟨s1, c1, c2, -, hto, hrest, rfl⟩
    · obtain ⟨hl, hq⟩ := ih hrest
      exact ⟨hl, fun c hc => List.mem_cons_of_mem _ (hq c hc)⟩
    · obtain ⟨hl1, hq1⟩ := routeTo_ledger hto
      obtain ⟨hl2, hq2⟩ := ih hrest
      refine ⟨?_, fun c hc => ?_⟩
      · rw [List.flatMap_append]
        exact hl1.trans hl2
      · rcases List.mem_append.mp hc with hc | hc
        · rw [hq1 c hc]
          exact List.mem_cons_self
        · exact List.mem_cons_of_mem _ (hq2 c hc)

/-- What a publish keeps besides the copies. -/
def spared (m : Message) (s : Server) (cs : List Stored) : List Ptr := if cs.length = 1 then routingClone m s else []

/-- Its books are even, or the routing clone is freed twice. -/
theorem publish_ledger {exchange : Nat} {m : Message} {s s' : Server} {cs : List Stored}
    (h : publishCopies exchange m s = some (s', cs)) :
    (CopyStored exchange m s ∧ Alloc.Ledger s.heap s'.heap (spared m s cs ++ cs.flatMap (·.copy.blocks))) ∨
      (¬ CopyStored exchange m s ∧ Alloc.Grows s.heap s'.heap ∧ Alloc.FreedTwice s.heap s'.heap) := by
  have hl := clone_ledger m s.heap
  rcases publishCopies_cases h with ⟨heap, hc, rfl, rfl⟩ | ⟨clone, heap, s1, hc, hrun, rfl⟩
  · rw [hc] at hl
    refine Or.inl ⟨?_, hl⟩
    rw [CopyStored, h, routingClone, hc]
    rfl
  have hclone : routingClone m s = clone.blocks := by
    rw [routingClone, hc]
    rfl
  rw [hc] at hl
  have hall : Alloc.Ledger s.heap s1.heap (clone.blocks ++ cs.flatMap (·.copy.blocks)) := hl.trans (routeCopies_ledger hrun).1
  match cs, hall, h with
  | [], hall, h =>
    refine Or.inr ⟨?_, ?_, ?_⟩
    · rw [CopyStored, h]
      intro hnil
      rw [hclone] at hnil
      have hmem := addr_mem_blocks clone
      rw [hnil] at hmem
      cases hmem
    · exact hall.grows.trans ((Alloc.grows_frees _ _).trans (Alloc.grows_frees _ _))
    · have hmem := addr_mem_blocks clone
      exact hall.freedTwice (List.mem_append_left _ hmem) hmem
  | [c], hall, h =>
    refine Or.inl ⟨?_, ?_⟩
    · rw [CopyStored, h]
      trivial
    · have hlen : [c].length = 1 := rfl
      rw [spared, if_pos hlen, hclone]
      exact hall
  | c :: c' :: cs, hall, h =>
    refine Or.inl ⟨?_, ?_⟩
    · rw [CopyStored, h]
      trivial
    · have hlen : (c :: c' :: cs).length ≠ 1 := by simp
      rw [spared, if_neg hlen, List.nil_append, if_neg (List.cons_ne_nil _ _), afterRouting, if_neg hlen]
      exact hall.frees

theorem lostBy_eq {exchange : Nat} {m : Message} {s s' : Server} {cs : List Stored}
    (h : publishCopies exchange m s = some (s', cs)) : lostBy exchange m s = m.blocks ++ spared m s cs := by
  rw [lostBy, h, spared]
  match cs with
  | [] => rfl
  | [_] => rfl
  | _ :: _ :: _ => rfl

/-- Copies go to queues that are bound. -/
theorem publish_bound {exchange : Nat} {m : Message} {s s' : Server} {cs : List Stored}
    (h : publishCopies exchange m s = some (s', cs)) : ∀ c ∈ cs, ∃ b ∈ s.broker.bindings, b.queue = c.queue := by
  rcases publishCopies_cases h with ⟨heap, hc, rfl, rfl⟩ | ⟨clone, heap, s1, hc, hrun, rfl⟩
  · exact fun _ hc => absurd hc List.not_mem_nil
  · exact fun c hc => List.mem_map.mp ((routeCopies_ledger hrun).2 c hc)

/-! ## What the other calls keep -/

theorem request_freed {h h' : Heap} {kind : Kind} {n : Nat} {p : Option Ptr} (e : h.request kind n = (p, h')) : h'.freed = h.freed := by
  unfold Alloc.Heap.request at e
  split at e
  · cases e
    rfl
  · cases e
    rfl

/-- A queue made keeps the blocks asked for; otherwise nothing is kept. -/
theorem queueCreate_ledger {name : CString} {new : NewQueue} {h h' : Heap} {made : Option (Queue Message)}
    (e : queueCreate (some name) new.capacity new.garbage new.garbageInfo new.sync h = (made, h')) :
    Alloc.Ledger h h' (if made.isSome then h.grantedSince h' else []) := by
  cases made with
  | none =>
    have hnone := (queue_grants name new h).2.2
    rw [e] at hnone
    exact hnone rfl
  | some q =>
  rw [if_pos (Option.isSome_some)]
  unfold queueCreate at e
  dsimp only at e
  split at e
  · cases e
  cases e0 : malloc h 224 with
  | mk queue h0 =>
  have l0 := Alloc.ledger_request h Kind.plain 224
  rw [show h.request Kind.plain 224 = (queue, h0) from e0] at l0
  rw [e0] at e
  cases queue with
  | none => cases e
  | some queue =>
  dsimp only at e
  cases e1 : strdup h0 name with
  | mk dup h1 =>
  have l1 := l0.trans (Alloc.ledger_request h0 Kind.plain (name.strlen + 1))
  rw [show h0.request Kind.plain (name.strlen + 1) = (dup, h1) from e1] at l1
  cases e2 : malloc h1 (new.capacity * 8).toNat with
  | mk messages h2 =>
  have l2 := l1.trans (Alloc.ledger_request h1 Kind.plain (new.capacity * 8).toNat)
  rw [show h1.request Kind.plain (new.capacity * 8).toNat = (messages, h2) from e2] at l2
  cases e3 : malloc h2 (DEFAULT_UNACKED_CAPACITY * 32) with
  | mk unacked h3 =>
  have l3 := l2.trans (Alloc.ledger_request h2 Kind.plain (DEFAULT_UNACKED_CAPACITY * 32))
  rw [show h2.request Kind.plain (DEFAULT_UNACKED_CAPACITY * 32) = (unacked, h3) from e3] at l3
  have hfreed : h3.freed = h.freed := (request_freed e3).trans ((request_freed e2).trans ((request_freed e1).trans (request_freed e0)))
  simp only [e1, e2] at e
  cases messages with
  | none => cases e
  | some messages =>
  simp only [e3] at e
  cases unacked with
  | none => cases e
  | some unacked =>
  dsimp only at e
  split at e
  · cases e
  · cases e
    exact l3.perm (l3.keeps_all hfreed)

/-- What `broker_create_queue` does to the broker. -/
theorem createQueue_cases {name : Option CString} {new : NewQueue} {n n' : Node} {made : Option Nat}
    (e : brokerCreateQueue name new n = some (made, n')) :
    (n' = n.withHeap n'.server.heap ∧ Alloc.Ledger n.server.heap n'.server.heap []) ∨
      ∃ queue, ∃ hroom : n.queueTable.length < MAX_QUEUES, n' = n.addQueue n.server.heap.next queue n'.server.heap hroom ∧
        Alloc.Ledger n.server.heap n'.server.heap (n.server.heap.grantedSince n'.server.heap) ∧
        n.server.heap.next < n'.server.heap.next ∧
        (new.capacity.toNat < 2 ^ 61 → RingOk queue ∧ ready queue = []) ∧ queue.unackedCount = 0 := by
  unfold brokerCreateQueue at e
  split at e
  · cases e
    exact Or.inl ⟨rfl, Alloc.ledger_refl _⟩
  split at e
  · cases e
  · cases e
    exact Or.inl ⟨rfl, Alloc.ledger_refl _⟩
  split at e
  · rename_i hroom
    split at e
    · rename_i hmade
      cases e
      have hl := queueCreate_ledger hmade
      exact Or.inl ⟨rfl, hl⟩
    · rename_i queue heap hmade
      cases e
      have hl := queueCreate_ledger hmade
      rw [if_pos Option.isSome_some] at hl
      have hfst := congrArg Prod.fst hmade
      refine Or.inr ⟨queue, hroom, rfl, hl, (queueCreate_heap hmade).2.2 rfl, fun hcap => ?_, (created hfst).unackedCount⟩
      obtain ⟨hok, hstore⟩ := created_ok hfst hcap
      exact ⟨hok, congrArg (·.ready) hstore⟩
  · cases e
    exact Or.inl ⟨rfl, Alloc.ledger_refl _⟩

theorem createExchange_cases {name : Option CString} {type : ExchangeType} {n n' : Node} {made : Option Nat}
    (e : brokerCreateExchange name type n = some (made, n')) :
    (n' = n.withHeap n'.server.heap ∧ Alloc.Ledger n.server.heap n'.server.heap []) ∨
      ∃ exchange, ∃ hroom : n.server.broker.exchanges.length < MAX_EXCHANGES,
        n' = n.addExchange n.server.heap.next exchange n'.server.heap hroom ∧
        Alloc.Ledger n.server.heap n'.server.heap (n.server.heap.grantedSince n'.server.heap) ∧
        n.server.heap.next < n'.server.heap.next := by
  unfold brokerCreateExchange at e
  split at e
  · cases e
    exact Or.inl ⟨rfl, Alloc.ledger_refl _⟩
  split at e
  · cases e
  · cases e
    exact Or.inl ⟨rfl, Alloc.ledger_refl _⟩
  rename_i name _ _
  split at e
  · rename_i hroom
    have l0 := Alloc.ledger_request n.server.heap Kind.plain 16
    cases e0 : malloc n.server.heap 16 with
    | mk exchange h0 =>
    rw [show n.server.heap.request Kind.plain 16 = (exchange, h0) from e0] at l0
    rw [e0] at e
    cases exchange with
    | none =>
      cases e
      exact Or.inl ⟨rfl, l0⟩
    | some exchange =>
      have l1 := l0.trans (Alloc.ledger_request h0 Kind.plain (name.strlen + 1))
      cases e1 : strdup h0 name with
      | mk dup h1 =>
      rw [show h0.request Kind.plain (name.strlen + 1) = (dup, h1) from e1] at l1
      simp only [e1] at e
      cases e
      have hfreed := (request_freed e1).trans (request_freed e0)
      have hnext : h1.next = n.server.heap.next + 2 := by
        rw [(Alloc.Heap.grants_request e1).1, (Alloc.Heap.grants_request e0).1]
      refine Or.inr ⟨⟨dup.map fun _ => name, type⟩, hroom, ?_, l1.perm (l1.keeps_all hfreed), ?_⟩
      · rw [← malloc_handle e0]
        rfl
      · show n.server.heap.next < h1.next
        omega
  · cases e
    exact Or.inl ⟨rfl, Alloc.ledger_refl _⟩

theorem bindQueue_cases (exchange queue : Option Nat) (routingKey : Option CString) (n : Node) :
    ((brokerBindQueue exchange queue routingKey n).1 = 0 ∧
      (brokerBindQueue exchange queue routingKey n).2 = n.withHeap (brokerBindQueue exchange queue routingKey n).2.server.heap ∧
      Alloc.Ledger n.server.heap (brokerBindQueue exchange queue routingKey n).2.server.heap []) ∨
    ((brokerBindQueue exchange queue routingKey n).1 ≠ 0 ∧ ∃ q b, queue = some q ∧ b.queue = q ∧
      ∃ hroom : n.server.broker.bindings.length < MAX_BINDINGS,
      (brokerBindQueue exchange queue routingKey n).2 =
        n.addBinding b (brokerBindQueue exchange queue routingKey n).2.server.heap hroom ∧
      Alloc.Ledger n.server.heap (brokerBindQueue exchange queue routingKey n).2.server.heap
        (n.server.heap.grantedSince (brokerBindQueue exchange queue routingKey n).2.server.heap)) := by
  generalize hr : brokerBindQueue exchange queue routingKey n = r
  unfold brokerBindQueue at hr
  split at hr
  · rename_i exchange queue
    split at hr
    · rename_i hroom
      have l0 := Alloc.ledger_request n.server.heap Kind.plain 24
      cases e0 : malloc n.server.heap 24 with
      | mk block h0 =>
      rw [show n.server.heap.request Kind.plain 24 = (block, h0) from e0] at l0
      rw [e0] at hr
      cases block with
      | none =>
        subst hr
        exact Or.inl ⟨rfl, rfl, l0⟩
      | some block =>
        subst hr
        have hkey : ∃ p, Alloc.Ledger h0 (dupKey routingKey h0).2 p ∧ (dupKey routingKey h0).2.freed = h0.freed := by
          cases routingKey with
          | none => exact ⟨[], Alloc.ledger_refl _, rfl⟩
          | some key => exact ⟨_, Alloc.ledger_request h0 Kind.plain (key.strlen + 1), request_freed rfl⟩
        obtain ⟨p, lp, hfreed⟩ := hkey
        have l1 := l0.trans lp
        exact Or.inr ⟨one_ne_zero, queue, _, rfl, rfl, hroom, rfl, l1.perm (l1.keeps_all (hfreed.trans (request_freed e0)))⟩
    · subst hr
      exact Or.inl ⟨rfl, rfl, Alloc.ledger_refl _⟩
  · subst hr
    exact Or.inl ⟨rfl, rfl, Alloc.ledger_refl _⟩

/-! ## Turns -/

theorem handle_publishes {i : Nat} {m : Message} {s : Server} {exchange : Nat} (h : publishesTo i m s = some exchange) :
    handleMessage i m s = (publishCopies exchange m s).map (·.1) := by
  unfold publishesTo at h
  unfold handleMessage
  cases hreg : isRegistration m.toFields with
  | none =>
    rw [hreg] at h
    cases h
  | some registers =>
  rw [hreg] at h
  cases registers with
  | true => cases h
  | false =>
  dsimp only at h ⊢
  by_cases hconsumer : (s.clients i).isConsumer = true
  · rw [if_pos hconsumer] at h
    cases h
  rw [if_neg hconsumer] at h ⊢
  cases hex : brokerGetExchange s m.exchange with
  | none =>
    rw [hex] at h
    cases h
  | some found =>
    rw [hex] at h
    cases h
    dsimp only
    rw [publish_copies, Option.map_map]
    rfl

theorem handle_drops {i : Nat} {m : Message} {s s' : Server} (hno : publishesTo i m s = none) (h : handleMessage i m s = some s') :
    s'.heap = messageFree m s.heap ∧ s'.queues = s.queues ∧ s'.broker = s.broker := by
  unfold publishesTo at hno
  unfold handleMessage at h
  cases hreg : isRegistration m.toFields with
  | none =>
    rw [hreg] at h
    cases h
  | some registers =>
  rw [hreg] at h hno
  cases registers with
  | true =>
    cases h
    obtain ⟨hqueues, hbroker, -, -⟩ := registerConsumer_frame i (registeredName m.toFields) s
    refine ⟨?_, hqueues, hbroker⟩
    simp only [registerConsumer]
    repeat' split
    all_goals rfl
  | false =>
  dsimp only at h hno
  by_cases hconsumer : (s.clients i).isConsumer = true
  · rw [if_pos hconsumer] at h
    cases h
    exact ⟨rfl, rfl, rfl⟩
  rw [if_neg hconsumer] at h hno
  cases hex : brokerGetExchange s m.exchange with
  | none =>
    rw [hex] at h
    cases h
  | some found =>
  rw [hex] at h hno
  cases found with
  | none =>
    cases h
    exact ⟨rfl, rfl, rfl⟩
  | some exchange => cases hno

/-- A turn that returns: what it read is freed or published. -/
theorem turn_does {i : Nat} {h h' : Handler} (hrun : h.exited = false) (hturn : clientHandlerTurn i h = some h') :
    (published i h = none ∧ Alloc.Ledger h.server.heap h'.server.heap [] ∧ h'.server.queues = h.server.queues ∧
      h'.server.broker = h.server.broker) ∨
    ∃ exchange m heap cs, published i h = some (exchange, m, { h.server with heap }) ∧
      Alloc.Ledger h.server.heap heap m.blocks ∧ publishCopies exchange m { h.server with heap } = some (h'.server, cs) := by
  unfold clientHandlerTurn at hturn
  rw [hrun, if_neg Bool.false_ne_true] at hturn
  unfold published
  by_cases hconn : (h.server.clients i).running = true
  case neg =>
    rw [if_pos (by simpa using hconn)] at hturn
    cases hturn
    exact Or.inl ⟨if_neg hconn, Alloc.ledger_refl _, rfl, rfl⟩
  rw [if_neg (by simpa using hconn)] at hturn
  rw [if_pos hconn]
  have hbooks := receive_ledger (h.server.clients i).fd h.world
  cases e : receiveMessageData (h.server.clients i).fd h.world with
  | mk got w =>
  rw [e] at hturn hbooks
  cases got with
  | none =>
    cases hturn
    exact Or.inl ⟨rfl, hbooks.none rfl, rfl, rfl⟩
  | some m =>
  have hl : Alloc.Ledger h.server.heap w.heap m.blocks := hbooks.some m rfl
  obtain ⟨s', hm, rfl⟩ := Option.map_eq_some_iff.mp hturn
  dsimp only
  cases hto : publishesTo i m (h.afterRead w).server with
  | some exchange =>
    rw [handle_publishes hto] at hm
    obtain ⟨⟨s1, cs⟩, hpub, rfl⟩ := Option.map_eq_some_iff.mp hm
    exact Or.inr ⟨exchange, m, w.heap, cs, rfl, hl, hpub⟩
  | none =>
    obtain ⟨hheap, hqueues, hbroker⟩ := handle_drops hto hm
    refine Or.inl ⟨rfl, ?_, hqueues, hbroker⟩
    rw [hheap]
    exact Alloc.Ledger.frees (by rwa [List.append_nil])

/-- A turn that does not return publishes nothing, or nothing comes back from the publish. -/
theorem turn_stops {i : Nat} {h : Handler} (hrun : h.exited = false) (hturn : clientHandlerTurn i h = none) :
    ∀ p ∈ published i h, publishCopies p.1 p.2.1 p.2.2 = none := by
  intro p hp
  unfold clientHandlerTurn at hturn
  rw [hrun, if_neg Bool.false_ne_true] at hturn
  unfold published at hp
  by_cases hconn : (h.server.clients i).running = true
  case neg =>
    rw [if_neg hconn] at hp
    cases hp
  rw [if_neg (by simpa using hconn)] at hturn
  rw [if_pos hconn] at hp
  cases e : receiveMessageData (h.server.clients i).fd h.world with
  | mk got w =>
  rw [e] at hturn hp
  cases got with
  | none => cases hp
  | some m =>
    obtain ⟨exchange, hto, rfl⟩ := Option.map_eq_some_iff.mp hp
    have hnone := Option.map_eq_none_iff.mp hturn
    rw [handle_publishes hto] at hnone
    exact Option.map_eq_none_iff.mp hnone

/-! ## Buckets -/

/-- What is sorted into the buckets of a table is all there. -/
theorem perm_buckets {ι α β : Type} [DecidableEq ι] (key : α → ι) (val : α → List β) {table : List ι} (hnodup : table.Nodup)
    {xs : List α} (hxs : ∀ x ∈ xs, key x ∈ table) :
    (table.flatMap fun q => (xs.filter (key · = q)).flatMap val).Perm (xs.flatMap val) := by
  induction table generalizing xs with
  | nil =>
    have hnil : xs = [] := List.eq_nil_iff_forall_not_mem.mpr fun x hx => List.not_mem_nil (hxs x hx)
    rw [hnil]
    exact .nil
  | cons q qs ih =>
    obtain ⟨hq, hnodup⟩ := List.nodup_cons.mp hnodup
    have hrest : ∀ x ∈ xs.filter (fun x => !decide (key x = q)), key x ∈ qs := by
      intro x hx
      obtain ⟨hx, hne⟩ := List.mem_filter.mp hx
      exact (List.mem_cons.mp (hxs x hx)).resolve_left (by simpa using hne)
    have hlater : (qs.flatMap fun q' => (xs.filter (key · = q')).flatMap val) =
        qs.flatMap fun q' => ((xs.filter (fun x => !decide (key x = q))).filter (key · = q')).flatMap val := by
      refine List.flatMap_congr fun q' hq' => ?_
      congr 1
      rw [List.filter_filter]
      refine List.filter_congr fun x _ => ?_
      have hne : q' ≠ q := fun he => hq (he ▸ hq')
      by_cases hx : key x = q'
      · simp [hx, hne]
      · simp [hx]
    rw [List.flatMap_cons, hlater]
    refine ((ih hnodup hrest).append_left _).trans ?_
    rw [← List.flatMap_append]
    exact (List.filter_append_perm _ xs).flatMap_right val

/-! ## What every step keeps -/

/-- Queues and handles are in order, whatever was freed. -/
structure Tidy (e : Estate) : Prop where
  rings : ∀ q, RingOk (e.node.server.queues q)
  quiet : ∀ q, (e.node.server.queues q).unackedCount = 0
  bound : ∀ b ∈ e.node.server.broker.bindings, b.queue ∈ e.node.queueTable
  nodup : e.node.queueTable.Nodup
  handles : ∀ q ∈ e.node.queueTable, q < e.heap.next
  exchanges : ∀ x ∈ e.node.server.broker.exchanges, x < e.heap.next

/-- What is neither freed nor lost is what `broker_free` will free. -/
def Even (h₀ : Heap) (e : Estate) : Prop := Alloc.Ledger h₀ e.heap (e.lost ++ freedAtEnd e)

section Step

variable {h₀ : Heap} {e e' : Estate}

theorem freedWithQueue_eq (h : Tidy e) (q : Nat) :
    freedWithQueue e q = (ready (e.node.server.queues q)).flatMap Message.blocks ++ structLast (e.queueBlocks q) := by
  have hnone : unacked (e.node.server.queues q) = [] := by
    rw [unacked, h.quiet q]
    rfl
  rw [freedWithQueue, queueFree_eq (h.rings q), hnone, live, msgs, List.filter_nil, List.map_nil, List.append_nil]

theorem structLast_perm (ps : List Ptr) : (structLast ps).Perm ps := by
  cases ps with
  | nil => exact .nil
  | cons p ps => exact List.perm_append_singleton p ps

/-- Handles that are not in the tables do not count. -/
theorem freedAtEnd_same (htable : e'.node.queueTable = e.node.queueTable)
    (hexchanges : e'.node.server.broker.exchanges = e.node.server.broker.exchanges)
    (hqueue : ∀ q ∈ e.node.queueTable, freedWithQueue e' q = freedWithQueue e q)
    (hexchange : ∀ x ∈ e.node.server.broker.exchanges, e'.exchangeBlocks x = e.exchangeBlocks x)
    (hbindings : e'.bindingBlocks = e.bindingBlocks) (hbroker : e'.broker = e.broker) : freedAtEnd e' = freedAtEnd e := by
  rw [freedAtEnd, freedAtEnd, htable, hexchanges, hbindings, hbroker, List.flatMap_congr hqueue,
    List.flatMap_congr fun x hx => congrArg structLast (hexchange x hx)]

/-- The heap went on, the rest of what counts did not. -/
theorem Even.same (h : Even h₀ e) (hl : Alloc.Ledger e.heap e'.heap []) (hlost : e'.lost = e.lost)
    (hfreed : freedAtEnd e' = freedAtEnd e) : Even h₀ e' := by
  rw [Even, hlost, hfreed]
  have hall := h.trans hl
  rwa [List.append_nil] at hall

/-- More is kept, and it will be freed. -/
theorem Even.gains (h : Even h₀ e) {ps : List Ptr} (hl : Alloc.Ledger e.heap e'.heap ps) (hlost : e'.lost = e.lost)
    (hfreed : (freedAtEnd e').Perm (freedAtEnd e ++ ps)) : Even h₀ e' := by
  rw [Even, hlost]
  refine (h.trans hl).perm ?_
  rw [List.append_assoc]
  exact (hfreed.symm).append_left _

theorem tidy_heap (h : Tidy e) (hnode : e'.node = e.node.withHeap e'.heap) (hle : e.heap.next ≤ e'.heap.next) : Tidy e' := by
  obtain ⟨hrings, hquiet, hbound, hnodup, hhandles, hexchanges⟩ := h
  constructor
  · rw [hnode]
    exact hrings
  · rw [hnode]
    exact hquiet
  · rw [hnode]
    exact hbound
  · rw [hnode]
    exact hnodup
  · rw [hnode]
    exact fun q hq => Nat.lt_of_lt_of_le (hhandles q hq) hle
  · rw [hnode]
    exact fun x hx => Nat.lt_of_lt_of_le (hexchanges x hx) hle

/-- What an event does: nothing is out of order after it, and the books are as even as before
    but for a message that is not stored. -/
structure KeepsBooks (e e' : Estate) (ok : Prop) : Prop where
  tidy : Tidy e'
  grows : Alloc.Grows e.heap e'.heap
  even : ok → ∀ h₀, Even h₀ e → Even h₀ e'
  twice : ¬ ok → Alloc.FreedTwice e.heap e'.heap

theorem books_same (h : Tidy e) : KeepsBooks e e True := ⟨h, .refl _, fun _ _ => id, fun hno => absurd trivial hno⟩

theorem books_heap (h : Tidy e) (hnode : e'.node = e.node.withHeap e'.heap) (hl : Alloc.Ledger e.heap e'.heap [])
    (hlost : e'.lost = e.lost) (hfreed : freedAtEnd e' = freedAtEnd e) : KeepsBooks e e' True :=
  ⟨tidy_heap h hnode hl.next_le, hl.grows, fun _ _ heven => heven.same hl hlost hfreed, fun hno => absurd trivial hno⟩

theorem books_more {ps : List Ptr} (h : Tidy e') (hl : Alloc.Ledger e.heap e'.heap ps) (hlost : e'.lost = e.lost)
    (hfreed : (freedAtEnd e').Perm (freedAtEnd e ++ ps)) : KeepsBooks e e' True :=
  ⟨h, hl.grows, fun _ _ heven => heven.gains hl hlost hfreed, fun hno => absurd trivial hno⟩

/-! ### Queues -/

theorem tidy_addQueue (h : Tidy e) {queue : Queue Message} {heap : Heap} (hroom : e.node.queueTable.length < MAX_QUEUES)
    (hring : RingOk queue) (hquiet : queue.unackedCount = 0) (hlt : e.heap.next < heap.next) :
    Tidy (e.afterQueue (e.node.addQueue e.heap.next queue heap hroom)) := by
  refine ⟨fun q => ?_, fun q => ?_, fun b hb => List.mem_append_left _ (h.bound b hb), ?_, fun q hq => ?_,
    fun x hx => Nat.lt_trans (h.exchanges x hx) hlt⟩
  · by_cases hq : q = e.heap.next
    · rw [hq]
      simpa [Estate.afterQueue, Node.addQueue] using hring
    · simpa [Estate.afterQueue, Node.addQueue, hq] using h.rings q
  · by_cases hq : q = e.heap.next
    · rw [hq]
      simpa [Estate.afterQueue, Node.addQueue] using hquiet
    · simpa [Estate.afterQueue, Node.addQueue, hq] using h.quiet q
  · refine List.Nodup.append h.nodup (List.nodup_singleton _) fun q hq hnew => ?_
    rw [List.mem_singleton.mp hnew] at hq
    exact Nat.lt_irrefl _ (h.handles _ hq)
  · rcases List.mem_append.mp hq with hq | hq
    · exact Nat.lt_trans (h.handles q hq) hlt
    · rw [List.mem_singleton.mp hq]
      exact hlt

theorem perm_insert {α : Type} {as bs cs ds : List α} (h : bs.Perm ds) : ((as ++ bs) ++ cs).Perm ((as ++ cs) ++ ds) := by
  rw [List.append_assoc, List.append_assoc]
  exact (List.perm_append_comm.trans (h.append_left cs)).append_left as

theorem addQueue_freed (h : Tidy e) {queue : Queue Message} {heap : Heap} (hroom : e.node.queueTable.length < MAX_QUEUES)
    (hring : RingOk queue) (hquiet : queue.unackedCount = 0) (hlt : e.heap.next < heap.next) (hempty : ready queue = []) :
    (freedAtEnd (e.afterQueue (e.node.addQueue e.heap.next queue heap hroom))).Perm
      (freedAtEnd e ++ e.heap.grantedSince heap) := by
  have htidy := tidy_addQueue h hroom hring hquiet hlt
  generalize he : e.afterQueue (e.node.addQueue e.heap.next queue heap hroom) = e' at *
  have hold : ∀ q ∈ e.node.queueTable, freedWithQueue e' q = freedWithQueue e q := by
    intro q hq
    have hne : q ≠ e.heap.next := Nat.ne_of_lt (h.handles q hq)
    rw [← he]
    simp only [freedWithQueue, Estate.afterQueue, Node.addQueue, Function.update_of_ne hne]
  have hnew : freedWithQueue e' e.heap.next = structLast (e.heap.grantedSince heap) := by
    have hqueue : e'.node.server.queues e.heap.next = queue := by
      rw [← he]
      exact Function.update_self ..
    have hblocks : e'.queueBlocks e.heap.next = e.heap.grantedSince heap := by
      rw [← he]
      exact Function.update_self ..
    rw [freedWithQueue_eq htidy, hqueue, hblocks, hempty, List.flatMap_nil, List.nil_append]
  have hfreed : freedAtEnd e' = (e.node.queueTable ++ [e.heap.next]).flatMap (freedWithQueue e') ++
      (e.node.server.broker.exchanges.flatMap (fun x => structLast (e.exchangeBlocks x)) ++
        (e.bindingBlocks.flatMap structLast ++ [e.broker])) := by
    rw [← he]
    rfl
  rw [hfreed, List.flatMap_append, List.flatMap_congr hold, List.flatMap_singleton, hnew]
  exact perm_insert (structLast_perm _)

theorem createQueue_books (h : Tidy e) {name : Option CString} {new : NewQueue} (hfits : new.capacity.toNat < 2 ^ 61)
    {made : Option Nat} {node : Node} (hc : brokerCreateQueue name new e.node = some (made, node)) :
    KeepsBooks e (e.afterQueue node) True := by
  rcases createQueue_cases hc with ⟨hnode, hl⟩ | ⟨queue, hroom, hnode, hl, hlt, hring, hquiet⟩
  · refine books_heap h hnode hl rfl ?_
    refine freedAtEnd_same ?_ ?_ (fun q hq => ?_) (fun _ _ => rfl) rfl rfl
    · exact congrArg (·.queueTable) hnode
    · exact congrArg (·.server.broker.exchanges) hnode
    · have hne : q ≠ e.heap.next := Nat.ne_of_lt (h.handles q hq)
      have hqueue : node.server.queues q = e.node.server.queues q := congrArg (·.server.queues q) hnode
      simp only [freedWithQueue, Estate.afterQueue, Function.update_of_ne hne, hqueue]
  · obtain ⟨hring, hempty⟩ := hring hfits
    generalize node.server.heap = heap at hnode hl hlt
    subst hnode
    exact books_more (tidy_addQueue h hroom hring hquiet hlt) hl rfl (addQueue_freed h hroom hring hquiet hlt hempty)

/-! ### Exchanges and bindings -/

theorem addExchange_freed (h : Tidy e) {exchange : Exchange} {heap : Heap}
    (hroom : e.node.server.broker.exchanges.length < MAX_EXCHANGES) :
    (freedAtEnd (e.afterExchange (e.node.addExchange e.heap.next exchange heap hroom))).Perm
      (freedAtEnd e ++ e.heap.grantedSince heap) := by
  have hold : ∀ x ∈ e.node.server.broker.exchanges,
      structLast (Function.update e.exchangeBlocks e.heap.next (e.heap.grantedSince heap) x) = structLast (e.exchangeBlocks x) :=
    fun x hx => congrArg structLast (Function.update_of_ne (Nat.ne_of_lt (h.exchanges x hx)) ..)
  have hfreed : freedAtEnd (e.afterExchange (e.node.addExchange e.heap.next exchange heap hroom)) =
      e.node.queueTable.flatMap (freedWithQueue e) ++
        ((e.node.server.broker.exchanges ++ [e.heap.next]).flatMap
            (fun x => structLast (Function.update e.exchangeBlocks e.heap.next (e.heap.grantedSince heap) x)) ++
          (e.bindingBlocks.flatMap structLast ++ [e.broker])) := rfl
  rw [hfreed, List.flatMap_append, List.flatMap_congr hold, List.flatMap_singleton, Function.update_self, freedAtEnd]
  refine ((perm_insert (structLast_perm _)).append_left _).trans (.of_eq ?_)
  simp only [List.append_assoc]

theorem createExchange_books (h : Tidy e) {name : Option CString} {type : ExchangeType} {made : Option Nat} {node : Node}
    (hc : brokerCreateExchange name type e.node = some (made, node)) : KeepsBooks e (e.afterExchange node) True := by
  have hblocks : ∀ x ∈ e.node.server.broker.exchanges, (e.afterExchange node).exchangeBlocks x = e.exchangeBlocks x :=
    fun x hx => Function.update_of_ne (Nat.ne_of_lt (h.exchanges x hx)) ..
  rcases createExchange_cases hc with ⟨hnode, hl⟩ | ⟨exchange, hroom, hnode, hl, hlt⟩
  · refine books_heap h hnode hl rfl (freedAtEnd_same ?_ ?_ (fun q _ => ?_) hblocks rfl rfl)
    · exact congrArg (·.queueTable) hnode
    · exact congrArg (·.server.broker.exchanges) hnode
    · have hqueue : node.server.queues q = e.node.server.queues q := congrArg (·.server.queues q) hnode
      simp only [freedWithQueue, Estate.afterExchange, hqueue]
  · generalize node.server.heap = heap at hnode hl hlt
    subst hnode
    refine books_more ⟨h.rings, h.quiet, h.bound, h.nodup, fun q hq => Nat.lt_trans (h.handles q hq) hlt, fun x hx => ?_⟩ hl rfl
      (addExchange_freed h hroom)
    rcases List.mem_append.mp hx with hx | hx
    · exact Nat.lt_trans (h.exchanges x hx) hlt
    · rw [List.mem_singleton.mp hx]
      exact hlt

theorem bindQueue_books (h : Tidy e) (exchange : Option Nat) {queue : Option Nat} (hqueue : ∀ q ∈ queue, q ∈ e.node.queueTable)
    (routingKey : Option CString) :
    KeepsBooks e (e.afterBinding (brokerBindQueue exchange queue routingKey e.node)) True := by
  have hcases := bindQueue_cases exchange queue routingKey e.node
  generalize brokerBindQueue exchange queue routingKey e.node = r at hcases ⊢
  obtain ⟨val, node⟩ := r
  rcases hcases with ⟨hval, hnode, hl⟩ | ⟨hval, q, b, hq, hb, hroom, hnode, hl⟩
  · refine books_heap h hnode hl rfl (freedAtEnd_same ?_ ?_ (fun q _ => ?_) (fun _ _ => rfl) (if_pos hval) rfl)
    · exact congrArg (·.queueTable) hnode
    · exact congrArg (·.server.broker.exchanges) hnode
    · have hsame : node.server.queues q = e.node.server.queues q := congrArg (·.server.queues q) hnode
      simp only [freedWithQueue, Estate.afterBinding, hsame]
  · dsimp only at hnode hl
    have hle := hl.next_le
    generalize node.server.heap = heap at hnode hl hle
    subst hnode
    refine books_more ⟨h.rings, h.quiet, fun b' hb' => ?_, h.nodup, fun q hq => Nat.lt_of_lt_of_le (h.handles q hq) hle,
      fun x hx => Nat.lt_of_lt_of_le (h.exchanges x hx) hle⟩ hl rfl ?_
    · rcases List.mem_append.mp hb' with hb' | hb'
      · exact h.bound b' hb'
      · rw [List.mem_singleton.mp hb', hb]
        exact hqueue q hq
    · have hfreed : freedAtEnd (e.afterBinding (val, e.node.addBinding b heap hroom)) =
          e.node.queueTable.flatMap (freedWithQueue e) ++
            (e.node.server.broker.exchanges.flatMap (fun x => structLast (e.exchangeBlocks x)) ++
              ((e.bindingBlocks ++ [e.heap.grantedSince heap]).flatMap structLast ++ [e.broker])) := by
        rw [freedAtEnd, Estate.afterBinding, if_neg hval]
        rfl
      rw [hfreed, List.flatMap_append, List.flatMap_singleton, freedAtEnd]
      refine (((perm_insert (structLast_perm _)).append_left _).append_left _).trans (.of_eq ?_)
      simp only [List.append_assoc]
      rfl

/-! ### Turns and passes -/

/-- Copies appended to their queues are freed with them. -/
theorem stored_freed (h : Tidy e) (htidy : Tidy e') {cs : List Stored} (hbound : ∀ c ∈ cs, c.queue ∈ e.node.queueTable)
    (hready : ∀ q, ready (e'.node.server.queues q) = ready (e.node.server.queues q) ++ (cs.filter (·.queue = q)).map (·.copy))
    (hrest : e' = { e with node := e'.node, lost := e'.lost }) (htable : e'.node.queueTable = e.node.queueTable)
    (hexchanges : e'.node.server.broker.exchanges = e.node.server.broker.exchanges) :
    (freedAtEnd e').Perm (freedAtEnd e ++ cs.flatMap (·.copy.blocks)) := by
  have hblocks : e'.queueBlocks = e.queueBlocks := congrArg (·.queueBlocks) hrest
  have hone : ∀ q ∈ e.node.queueTable, (freedWithQueue e' q).Perm
      (freedWithQueue e q ++ (cs.filter (·.queue = q)).flatMap (·.copy.blocks)) := by
    intro q _
    rw [freedWithQueue_eq htidy, freedWithQueue_eq h, hready q, hblocks, List.flatMap_append, List.flatMap_map]
    exact perm_insert (.refl _)
  have hsorted := perm_buckets Stored.queue (fun c => c.copy.blocks) h.nodup hbound
  have hqueues : (e.node.queueTable.flatMap (freedWithQueue e')).Perm
      (e.node.queueTable.flatMap (freedWithQueue e) ++ cs.flatMap fun c => c.copy.blocks) :=
    (List.Perm.flatMap_left _ hone).trans ((List.flatMap_append_perm ..).symm.trans (hsorted.append_left _))
  have hexchange : e'.exchangeBlocks = e.exchangeBlocks := congrArg (·.exchangeBlocks) hrest
  have hbinding : e'.bindingBlocks = e.bindingBlocks := congrArg (·.bindingBlocks) hrest
  have hbroker : e'.broker = e.broker := congrArg (·.broker) hrest
  rw [freedAtEnd, freedAtEnd, htable, hexchanges, hexchange, hbinding, hbroker]
  refine (hqueues.append_right _).trans ?_
  exact perm_insert (.refl _)

/-- A publish of what the turn read. -/
theorem publish_books (h : Tidy e) {exchange : Nat} {m : Message} {heap : Heap} (hread : Alloc.Ledger e.heap heap m.blocks)
    {s' : Server} {cs : List Stored} (hpub : publishCopies exchange m { e.node.server with heap } = some (s', cs)) :
    KeepsBooks e (e.afterTurn s' (lostBy exchange m { e.node.server with heap }))
      (CopyStored exchange m { e.node.server with heap }) := by
  have hslots : ∀ q, SlotsOk (({ e.node.server with heap } : Server).queues q) := fun q => (h.rings q).slots
  have happends := (publish_appends hslots hpub).1
  have hbroker : s'.broker = e.node.server.broker := by
    rw [happends.tables]
  have hcases := publish_ledger hpub
  have hgrows : Alloc.Grows heap s'.heap := by
    rcases hcases with ⟨-, hl⟩ | ⟨-, hgrows, -⟩
    · exact hl.grows
    · exact hgrows
  have hnext : e.heap.next ≤ s'.heap.next := Nat.le_trans hread.next_le hgrows.next
  have htidy : Tidy (e.afterTurn s' (lostBy exchange m { e.node.server with heap })) := by
    refine ⟨fun q => ?_, fun q => ?_, ?_, h.nodup, fun q hq => Nat.lt_of_lt_of_le (h.handles q hq) hnext, ?_⟩
    · have hring := happends.slots q
      refine ⟨hring.capPos, ?_, hring.headLt, hring.sizeLe, hring.tailEq⟩
      show (s'.queues q).capacity.toNat < 2 ^ 61
      rw [happends.queues q]
      exact (h.rings q).capLt
    · show (s'.queues q).unackedCount = 0
      rw [happends.queues q]
      exact h.quiet q
    · show ∀ b ∈ s'.broker.bindings, _
      rw [hbroker]
      exact h.bound
    · show ∀ x ∈ s'.broker.exchanges, _
      rw [hbroker]
      exact fun x hx => Nat.lt_of_lt_of_le (h.exchanges x hx) hnext
  refine ⟨htidy, hread.grows.trans hgrows, fun hok h₀ heven => ?_, fun hno => ?_⟩
  · obtain ⟨-, hl⟩ := hcases.resolve_right fun hbad => hbad.1 hok
    have hbound : ∀ c ∈ cs, c.queue ∈ e.node.queueTable := by
      intro c hc
      obtain ⟨b, hb, hq⟩ := publish_bound hpub c hc
      rw [← hq]
      exact h.bound b hb
    have hfreed := stored_freed h htidy hbound happends.ready rfl rfl (congrArg (·.exchanges) hbroker)
    show Alloc.Ledger h₀ s'.heap ((e.lost ++ lostBy exchange m { e.node.server with heap }) ++ _)
    rw [lostBy_eq hpub]
    refine ((heven.trans hread).trans hl).perm (List.Perm.trans ?_ (hfreed.symm.append_left _))
    have hmoved := List.perm_append_comm_assoc (freedAtEnd e) (m.blocks ++ spared m { e.node.server with heap } cs)
      (cs.flatMap fun c => c.copy.blocks)
    simp only [List.append_assoc] at hmoved ⊢
    exact hmoved.append_left e.lost
  · obtain ⟨-, -, htwice⟩ := hcases.resolve_left fun hgood => hno hgood.1
    exact Alloc.freedTwice_grows hread.grows hgrows (Or.inr htwice)

theorem turn_books (h : Tidy e) (i : Nat) (inlet : Inlet) (errno : Nat) :
    KeepsBooks e (estateStep e (.turn i inlet errno)) (Routable e (.turn i inlet errno)) := by
  simp only [estateStep, Routable]
  cases hturn : clientHandlerTurn i (e.handler inlet errno) with
  | none =>
    have hok : ∀ p ∈ published i (e.handler inlet errno), CopyStored p.1 p.2.1 p.2.2 := by
      intro p hp
      rw [CopyStored, turn_stops rfl hturn p hp]
      trivial
    exact ⟨h, .refl _, fun _ _ => id, fun hno => absurd hok hno⟩
  | some h' =>
  dsimp only
  rcases turn_does rfl hturn with ⟨hpub, hl, hqueues, hbroker⟩ | ⟨exchange, m, heap, cs, hpub, hread, hcopies⟩
  · rw [hpub]
    have hlost : (e.afterTurn h'.server []).lost = e.lost := List.append_nil _
    have hnode : ∀ q, h'.server.queues q = e.node.server.queues q := congrFun hqueues
    refine ⟨?_, hl.grows, fun _ h₀ heven => heven.same hl hlost ?_, fun hno => absurd (fun _ hp => by cases hp) hno⟩
    · refine ⟨fun q => ?_, fun q => ?_, ?_, h.nodup, fun q hq => Nat.lt_of_lt_of_le (h.handles q hq) hl.next_le, ?_⟩
      · exact (hnode q).symm ▸ h.rings q
      · exact (hnode q).symm ▸ h.quiet q
      · show ∀ b ∈ h'.server.broker.bindings, _
        rw [hbroker]
        exact h.bound
      · show ∀ x ∈ h'.server.broker.exchanges, _
        rw [hbroker]
        exact fun x hx => Nat.lt_of_lt_of_le (h.exchanges x hx) hl.next_le
    · refine freedAtEnd_same rfl (congrArg (·.exchanges) hbroker) (fun q _ => ?_) (fun _ _ => rfl) rfl rfl
      simp only [freedWithQueue, Estate.afterTurn, hnode q]
  · rw [hpub]
    have hbooks := publish_books h hread hcopies
    exact ⟨hbooks.tidy, hbooks.grows, fun hok => hbooks.even (hok _ rfl), fun hno => hbooks.twice fun hgood => hno fun p hp => by
      cases hp
      exact hgood⟩

theorem step_books (e : Estate) (ev : EstateEvent) (h : Tidy e) : KeepsBooks e (estateStep e ev) (Routable e ev) := by
  cases ev with
  | createQueue name new fits =>
    simp only [estateStep, Routable]
    cases hc : brokerCreateQueue name new e.node with
    | none => exact books_same h
    | some made => exact createQueue_books h fits hc
  | createExchange name type =>
    simp only [estateStep, Routable]
    cases hc : brokerCreateExchange name type e.node with
    | none => exact books_same h
    | some made => exact createExchange_books h hc
  | bindQueue exchange queue routingKey => exact bindQueue_books h _ (fun q hq => List.mem_of_getElem? hq) routingKey
  | turn i inlet errno => exact turn_books h i inlet errno
  | timeouts now =>
    simp only [estateStep, Routable, processTimeouts_idle h.quiet]
    exact books_same h

end Step

/-! ## From `broker_create` to `broker_free` -/

/-- Queue handles that lead to no queue yet. -/
def NoQueues (n : Node) : Prop := ∀ q, RingOk (n.server.queues q) ∧ (n.server.queues q).unackedCount = 0

theorem created_even {mutex : Bool} {n : Node} {e : Estate} (hn : NoQueues n) (hnew : (brokerCreate mutex n).1 = some e) :
    Tidy e ∧ Even n.server.heap e := by
  have hl := Alloc.ledger_request n.server.heap Kind.plain 528
  unfold brokerCreate at hnew
  cases hm : malloc n.server.heap 528 with
  | mk broker heap =>
  rw [show n.server.heap.request Kind.plain 528 = (broker, heap) from hm] at hl
  rw [hm] at hnew
  cases broker with
  | none => cases hnew
  | some broker =>
    dsimp only at hnew
    split at hnew
    · cases hnew
      refine ⟨⟨fun q => (hn q).1, fun q => (hn q).2, fun _ hb => absurd hb List.not_mem_nil, List.nodup_nil,
        fun _ hq => absurd hq List.not_mem_nil, fun _ hx => absurd hx List.not_mem_nil⟩, hl⟩
    · cases hnew

/-- Some block has been freed twice. -/
structure Spoiled (h₀ : Heap) (e : Estate) : Prop where
  tidy : Tidy e
  grows : Alloc.Grows h₀ e.heap
  twice : Alloc.FreedTwice h₀ e.heap

theorem even_step {h₀ : Heap} (e : Estate) (ev : EstateEvent) (h : Tidy e ∧ Even h₀ e) (hok : Routable e ev) :
    Tidy (estateStep e ev) ∧ Even h₀ (estateStep e ev) := by
  have hbooks := step_books e ev h.1
  exact ⟨hbooks.tidy, hbooks.even hok h₀ h.2⟩

theorem spoils_step {h₀ : Heap} (e : Estate) (ev : EstateEvent) (h : Tidy e ∧ Even h₀ e) (hno : ¬ Routable e ev) :
    Spoiled h₀ (estateStep e ev) := by
  have hbooks := step_books e ev h.1
  have hgrows : Alloc.Grows h₀ e.heap := Alloc.Ledger.grows h.2
  exact ⟨hbooks.tidy, hgrows.trans hbooks.grows, Alloc.freedTwice_grows hgrows hbooks.grows (Or.inr (hbooks.twice hno))⟩

theorem spoiled_step {h₀ : Heap} (e : Estate) (ev : EstateEvent) (h : Spoiled h₀ e) : Spoiled h₀ (estateStep e ev) := by
  have hbooks := step_books e ev h.tidy
  exact ⟨hbooks.tidy, h.grows.trans hbooks.grows, Alloc.freedTwice_grows h.grows hbooks.grows (Or.inl h.twice)⟩

/-- Every block asked for since `broker_create` is freed exactly once by the end of
    `broker_free` but for those lost, exactly when no publish is without a copy stored; and when
    one is, some block is freed twice. -/
theorem given_back_iff {mutex : Bool} {n : Node} {e : Estate} (hn : NoQueues n) (hnew : (brokerCreate mutex n).1 = some e)
    (es : List EstateEvent) :
    (Alloc.Accounts n.server.heap (brokerFree (Run.run estateStep e es)) (Run.run estateStep e es).lost ↔
      Run.Along estateStep Routable e es) ∧
    (¬ Run.Along estateStep Routable e es → Alloc.FreedTwice n.server.heap (brokerFree (Run.run estateStep e es))) := by
  have hcases := Run.along_or_harmed even_step spoils_step spoiled_step es (created_even hn hnew)
  rcases hcases with ⟨halong, -, heven⟩ | ⟨hno, hspoiled⟩
  · refine ⟨iff_of_true ?_ halong, fun hno => absurd halong hno⟩
    exact (Alloc.Ledger.perm heven List.perm_append_comm).frees.accounts
  · have htwice : Alloc.FreedTwice n.server.heap (brokerFree (Run.run estateStep e es)) :=
      Alloc.freedTwice_grows hspoiled.grows (Alloc.grows_frees _ _) (Or.inl hspoiled.twice)
    exact ⟨iff_of_false (fun haccounts => haccounts.not_freedTwice htwice) hno, fun _ => htwice⟩

/-- A process with no broker yet. -/
def bareNode : Node := ⟨serverWith (fun _ => emptyQueue) [] (by decide), [], by decide⟩

theorem bareNode_queues : NoQueues bareNode := fun _ => ⟨emptyQueue_ring, rfl⟩

def aFreshBroker : Estate where
  node :=
    { bareNode with
      server := { bareNode.server with heap := (malloc bareNode.server.heap 528).2, broker := ⟨[], [], by decide, by decide⟩ } }
  broker := ⟨100, .plain⟩
  queueBlocks _ := []
  exchangeBlocks _ := []
  bindingBlocks := []
  lost := []

theorem aFreshBroker_created : (brokerCreate true bareNode).1 = some aFreshBroker := rfl

/-- A queue of two slots and an exchange, both named "a", and what client 1 sends. -/
def aLife (sent : List Frame) : List EstateEvent :=
  [.createQueue (some twoBytes.exchange) ⟨2, emptyQueue.messages, emptyQueue.unackedMessages, ⟨true, true, true⟩⟩ (by decide),
    .createExchange (some twoBytes.exchange) .fanout, .bindQueue 0 0 none] ++
  sent.map fun f => .turn 1 ⟨f.encode, fun _ => .upTo 64, 0⟩ 0

/-- Two messages are published, one names no exchange; and of three, the third finds the queue
    full. -/
theorem given_back_when_routed :
    Alloc.Accounts bareNode.server.heap (brokerFree (Run.run estateStep aFreshBroker (aLife [twoBytes, nothing, twoBytes])))
      (Run.run estateStep aFreshBroker (aLife [twoBytes, nothing, twoBytes])).lost ∧
    Alloc.FreedTwice bareNode.server.heap (brokerFree (Run.run estateStep aFreshBroker (aLife [twoBytes, twoBytes, twoBytes]))) :=
  ⟨(given_back_iff bareNode_queues aFreshBroker_created _).1.mpr (by decide +kernel),
    (given_back_iff bareNode_queues aFreshBroker_created _).2 (by decide +kernel)⟩

end RabbitMQ.Core
