/-
  RabbitMQ.Core.Registries — the broker's two registries over whole runs.

  The tables of queues and of exchanges are directories (`queueDirectory`,
  `exchangeDirectory`), and the searches of `broker.c` are their look-up
  (`search_lookup`). With memory granted every call keeps them sound and only adds to
  them (`call_keeps`), and says what it did (`Reports`). So names stay distinct, a handle once
  returned for a name is returned for it from then on, what a binding was made with stays
  registered, and a call that returns NULL or 0 has changed nothing (`registries_stable`).
-/

import RabbitMQ.Core.Creating
import RabbitMQ.Lib.Directory

namespace RabbitMQ.Core

open Lib

/-! ## The calls -/

def brokerGetQueue (n : Node) (name : Option CString) : Option (Option Nat) :=
  match name with
  | none => some none
  | some name => findQueue n.server.queues name n.queueTable

inductive RegistryCall where
  | createQueue (name : Option CString) (new : NewQueue)
  | createExchange (name : Option CString) (type : ExchangeType)
  | bindQueue (exchange queue : Option Nat) (routingKey : Option CString)
  | publish (exchange : Nat) (message : Message)
  | getQueue (name : Option CString)
  | getExchange (name : Option CString)

/-- What a call returns: a handle, or a number. -/
inductive Answer where
  | handle (h : Option Nat)
  | val (n : Nat)
  deriving DecidableEq, Repr

/-- none where the call does not return. -/
def RegistryCall.run (n : Node) : RegistryCall → Option (Answer × Node)
  | .createQueue name new => (brokerCreateQueue name new n).map fun r => (.handle r.1, r.2)
  | .createExchange name type => (brokerCreateExchange name type n).map fun r => (.handle r.1, r.2)
  | .bindQueue exchange queue routingKey =>
    let r := brokerBindQueue exchange queue routingKey n
    some (.val r.1, r.2)
  | .publish exchange message => (brokerPublish exchange message n.server).map fun r => (.val r.1, { n with server := r.2 })
  | .getQueue name => (brokerGetQueue n name).map fun q => (.handle q, n)
  | .getExchange name => (brokerGetExchange n.server name).map fun e => (.handle e, n)

/-- The calls made, each with what it returned. -/
inductive Calls : Node → List (RegistryCall × Answer) → Node → Prop
  | nil (n : Node) : Calls n [] n
  | cons {n n1 n' : Node} {c : RegistryCall} {a : Answer} {log : List (RegistryCall × Answer)} :
      c.run n = some (a, n1) → Calls n1 log n' → Calls n ((c, a) :: log) n'

/-! ## The tables as directories -/

def queueDirectory (n : Node) : Directory CString := ⟨n.queueTable, fun q => (n.server.queues q).name⟩

def exchangeDirectory (n : Node) : Directory CString := ⟨n.server.broker.exchanges, fun e => (n.server.exchanges e).name⟩

/-- The searches of the two tables are one: by `strcmp`, to the first name that is equal. -/
theorem search_lookup {names : Nat → Option CString} {name : CString} {search : List Nat → Option (Option Nat)}
    (hnil : search [] = some none)
    (hcons : ∀ h hs, search (h :: hs) =
      match strcmpEq (names h) (some name) with
      | none => none
      | some true => some (some h)
      | some false => search hs)
    {table : List Nat} (hnamed : ∀ h ∈ table, names h ≠ none) :
    search table = some ((⟨table, names⟩ : Directory CString).lookup name) := by
  induction table with
  | nil => exact hnil
  | cons h table ih =>
    obtain ⟨k, hk⟩ := Option.ne_none_iff_exists'.mp (hnamed h List.mem_cons_self)
    have ih := ih fun g hg => hnamed g (List.mem_cons_of_mem h hg)
    rw [Directory.lookup_cons, hcons, hk]
    by_cases heq : k = name
    · simp [strcmpEq, heq]
    · simp [strcmpEq, heq, ih]

/-- Sound tables, in memory that grants every request. -/
structure Registered (n : Node) : Prop where
  queues : (queueDirectory n).Sound n.server.heap.next
  exchanges : (exchangeDirectory n).Sound n.server.heap.next
  granted : n.server.heap.AllGranted
  slots : ∀ q, SlotsOk (n.server.queues q)

theorem Registered.findQueue {n : Node} (h : Registered n) (name : CString) :
    findQueue n.server.queues name n.queueTable = some ((queueDirectory n).lookup name) :=
  search_lookup rfl (fun _ _ => rfl) h.queues.named

theorem Registered.findExchange {n : Node} (h : Registered n) (name : CString) :
    findExchange n.server.exchanges name n.server.broker.exchanges = some ((exchangeDirectory n).lookup name) :=
  search_lookup rfl (fun _ _ => rfl) h.exchanges.named

/-- The tables of `n` and what is added to them. -/
structure Grows (n n' : Node) : Prop where
  queues : (queueDirectory n).Extends (queueDirectory n')
  exchanges : (exchangeDirectory n).Extends (exchangeDirectory n')
  bindings : n.server.broker.bindings <+: n'.server.broker.bindings

theorem Grows.trans {n n' n'' : Node} (h : Grows n n') (h' : Grows n' n'') : Grows n n'' :=
  ⟨h.queues.trans h'.queues, h.exchanges.trans h'.exchanges, h.bindings.trans h'.bindings⟩

theorem grows_same {n n' : Node} (hq : queueDirectory n' = queueDirectory n) (he : exchangeDirectory n' = exchangeDirectory n)
    (hb : n'.server.broker.bindings = n.server.broker.bindings) : Grows n n' := by
  refine ⟨?_, ?_, ?_⟩
  · rw [hq]
    exact Directory.Extends.refl _
  · rw [he]
    exact Directory.Extends.refl _
  · rw [hb]

/-- Only the heap has changed. -/
theorem registered_heap {n : Node} (h : Registered n) {heap : Heap} (hle : n.server.heap.next ≤ heap.next)
    (hg : heap.AllGranted) : Registered (n.withHeap heap) ∧ Grows n (n.withHeap heap) :=
  ⟨⟨h.queues.mono hle, h.exchanges.mono hle, hg, h.slots⟩, grows_same rfl rfl rfl⟩

/-! ## What a call reports -/

/-- What the answer says about the broker before and after. -/
def Reports (n n' : Node) : RegistryCall → Answer → Prop
  | .createQueue name _, .handle (some q) => ∃ k, name = some k ∧ (queueDirectory n').lookup k = some q
  | .createExchange name _, .handle (some e) => ∃ k, name = some k ∧ (exchangeDirectory n').lookup k = some e
  | .createQueue _ _, .handle none | .createExchange _ _, .handle none => n' = n.withHeap n'.server.heap
  | .bindQueue exchange queue routingKey, .val v =>
    (v = 0 ∧ n' = n.withHeap n'.server.heap) ∨
      (v = 1 ∧ ∃ e q, exchange = some e ∧ queue = some q ∧ ⟨e, q, routingKey⟩ ∈ n'.server.broker.bindings)
  | .getQueue name, .handle h => n' = n ∧ h = name.bind (queueDirectory n).lookup
  | .getExchange name, .handle h => n' = n ∧ h = name.bind (exchangeDirectory n).lookup
  | .publish _ _, .val _ => n'.queueTable = n.queueTable ∧ n'.server.broker = n.server.broker
  | _, _ => False

/-- A queue made has taken a handle; nothing turns a request down for later. -/
theorem queueCreate_heap {name : CString} {new : NewQueue} {h h' : Heap} {made : Option (Queue Message)}
    (e : queueCreate (some name) new.capacity new.garbage new.garbageInfo new.sync h = (made, h')) :
    h'.fails = h.fails ∧ h.next ≤ h'.next ∧ (made.isSome = true → h.next < h'.next) := by
  unfold queueCreate at e
  dsimp only at e
  split at e
  · cases e
    exact ⟨rfl, Nat.le_refl _, fun hs => by cases hs⟩
  cases e0 : malloc h 224 with
  | mk queue h0 =>
  cases e1 : strdup h0 name with
  | mk dup h1 =>
  cases e2 : malloc h1 (new.capacity * 8).toNat with
  | mk messages h2 =>
  cases e3 : malloc h2 (DEFAULT_UNACKED_CAPACITY * 32) with
  | mk unacked h3 =>
  obtain ⟨n0, f0, -⟩ := Alloc.Heap.grants_request e0
  obtain ⟨n1, f1, -⟩ := Alloc.Heap.grants_request e1
  obtain ⟨n2, f2, -⟩ := Alloc.Heap.grants_request e2
  obtain ⟨n3, f3, -⟩ := Alloc.Heap.grants_request e3
  have hfails := f3.trans (f2.trans (f1.trans f0))
  rw [e0] at e
  cases queue with
  | none =>
    cases e
    exact ⟨f0, by omega, fun hs => by cases hs⟩
  | some queue =>
  simp only [e1, e2] at e
  cases messages with
  | none =>
    cases e
    exact ⟨f2.trans (f1.trans f0), by show h.next ≤ h2.next; omega, fun hs => by cases hs⟩
  | some messages =>
  simp only [e3] at e
  cases unacked with
  | none =>
    cases e
    exact ⟨hfails, by show h.next ≤ h3.next; omega, fun hs => by cases hs⟩
  | some unacked =>
  dsimp only at e
  split at e
  · cases e
    exact ⟨hfails, by show h.next ≤ h3.next; omega, fun hs => by cases hs⟩
  · cases e
    exact ⟨hfails, by omega, fun _ => by omega⟩

theorem queueCreate_made {name : CString} {new : NewQueue} {h h' : Heap} (hg : h.AllGranted) {made : Option (Queue Message)}
    (e : queueCreate (some name) new.capacity new.garbage new.garbageInfo new.sync h = (made, h')) :
    h'.AllGranted ∧ h.next ≤ h'.next ∧ ∀ q, made = some q → q.name = some name ∧ h.next < h'.next := by
  have hname := (queue_grants name new h).2.1
  rw [e] at hname
  obtain ⟨hfails, hle, hlt⟩ := queueCreate_heap e
  refine ⟨fun n => by rw [hfails]; exact hg n, hle, fun q hq => ⟨?_, hlt (by rw [hq]; rfl)⟩⟩
  have hcopied := (hname q hq).mpr fun k _ => hg _
  simpa using hcopied

/-- A block is at the handle of its request. -/
theorem malloc_handle {h h' : Heap} {n : Nat} {p : Ptr} (e : malloc h n = (some p, h')) : p.request = h.next := by
  unfold malloc Alloc.Heap.request at e
  split at e
  · cases e
  · cases e
    rfl

theorem dupKey_granted {routingKey : Option CString} {h : Heap} (hg : h.AllGranted) :
    (dupKey routingKey h).1 = routingKey ∧ h.next ≤ (dupKey routingKey h).2.next ∧ (dupKey routingKey h).2.AllGranted := by
  cases routingKey with
  | none => exact ⟨rfl, Nat.le_refl _, hg⟩
  | some key =>
    cases e : strdup h key with
    | mk dup h' =>
    obtain ⟨hn, hf, hs⟩ := Alloc.Heap.grants_request e
    have hsome := hs.mpr (hg _)
    cases dup with
    | none => cases hsome
    | some dup =>
      simp only [dupKey, e, Option.map_some]
      exact ⟨trivial, by omega, fun k => by rw [hf]; exact hg k⟩

/-! ## What each call does -/

/-- A queue added under a new name, at a handle not yet used. -/
theorem addQueue_does {n : Node} (h : Registered n) (hroom : n.queueTable.length < MAX_QUEUES) {name : CString} {q : Nat}
    {queue : Queue Message} {heap : Heap} (hfound : (queueDirectory n).lookup name = none) (hname : queue.name = some name)
    (hq : n.server.heap.next ≤ q) (hlt : q < heap.next) (hg : heap.AllGranted) (hslots : SlotsOk queue) :
    Registered (n.addQueue q queue heap hroom) ∧ Grows n (n.addQueue q queue heap hroom) ∧
      (queueDirectory (n.addQueue q queue heap hroom)).lookup name = some q := by
  have hdirectory : queueDirectory (n.addQueue q queue heap hroom) = (queueDirectory n).add q name := Directory.update_add hname
  have hle : n.server.heap.next ≤ heap.next := by omega
  refine ⟨⟨?_, h.exchanges.mono hle, hg, fun r => ?_⟩, ⟨?_, Directory.Extends.refl _, List.prefix_rfl⟩, ?_⟩
  · rw [hdirectory]
    exact h.queues.add hfound hq hlt
  · by_cases hr : r = q
    · subst hr
      simpa [Node.addQueue] using hslots
    · simpa [Node.addQueue, hr] using h.slots r
  · rw [hdirectory]
    exact Directory.extends_add h.queues hq
  · rw [hdirectory]
    exact Directory.lookup_add h.queues hfound hq

theorem addExchange_does {n : Node} (h : Registered n) (hroom : n.server.broker.exchanges.length < MAX_EXCHANGES)
    {name : CString} {x : Nat} {exchange : Exchange} {heap : Heap} (hfound : (exchangeDirectory n).lookup name = none)
    (hname : exchange.name = some name) (hx : n.server.heap.next ≤ x) (hlt : x < heap.next) (hg : heap.AllGranted) :
    Registered (n.addExchange x exchange heap hroom) ∧ Grows n (n.addExchange x exchange heap hroom) ∧
      (exchangeDirectory (n.addExchange x exchange heap hroom)).lookup name = some x := by
  have hdirectory : exchangeDirectory (n.addExchange x exchange heap hroom) = (exchangeDirectory n).add x name :=
    Directory.update_add hname
  have hle : n.server.heap.next ≤ heap.next := by omega
  refine ⟨⟨h.queues.mono hle, ?_, hg, h.slots⟩, ⟨Directory.Extends.refl _, ?_, List.prefix_rfl⟩, ?_⟩
  · rw [hdirectory]
    exact h.exchanges.add hfound hx hlt
  · rw [hdirectory]
    exact Directory.extends_add h.exchanges hx
  · rw [hdirectory]
    exact Directory.lookup_add h.exchanges hfound hx

theorem createQueue_does {n n' : Node} (h : Registered n) {name : Option CString} {new : NewQueue} {q : Option Nat}
    (e : brokerCreateQueue name new n = some (q, n')) :
    Registered n' ∧ Grows n n' ∧ Reports n n' (.createQueue name new) (.handle q) := by
  cases name with
  | none =>
    cases e
    exact ⟨h, grows_same rfl rfl rfl, rfl⟩
  | some name =>
  rw [brokerCreateQueue, h.findQueue] at e
  cases hfound : (queueDirectory n).lookup name with
  | some found =>
    rw [hfound] at e
    cases e
    exact ⟨h, grows_same rfl rfl rfl, name, rfl, hfound⟩
  | none =>
  simp only [hfound] at e
  split at e
  · rename_i hroom
    cases hmade : queueCreate (some name) new.capacity new.garbage new.garbageInfo new.sync n.server.heap with
    | mk made heap =>
    obtain ⟨hg, hle, hqueue⟩ := queueCreate_made h.granted hmade
    rw [hmade] at e
    cases made with
    | none =>
      cases e
      obtain ⟨hr, hgrows⟩ := registered_heap h hle hg
      exact ⟨hr, hgrows, rfl⟩
    | some queue =>
      cases e
      obtain ⟨hname, hlt⟩ := hqueue queue rfl
      have hslots : SlotsOk queue := created_slots (congrArg Prod.fst hmade)
      obtain ⟨hr, hgrows, hlookup⟩ := addQueue_does h hroom hfound hname (Nat.le_refl _) hlt hg hslots
      exact ⟨hr, hgrows, name, rfl, hlookup⟩
  · cases e
    exact ⟨h, grows_same rfl rfl rfl, rfl⟩

theorem createExchange_does {n n' : Node} (h : Registered n) {name : Option CString} {type : ExchangeType} {found : Option Nat}
    (e : brokerCreateExchange name type n = some (found, n')) :
    Registered n' ∧ Grows n n' ∧ Reports n n' (.createExchange name type) (.handle found) := by
  cases name with
  | none =>
    cases e
    exact ⟨h, grows_same rfl rfl rfl, rfl⟩
  | some name =>
  rw [brokerCreateExchange, h.findExchange] at e
  cases hfound : (exchangeDirectory n).lookup name with
  | some found =>
    rw [hfound] at e
    cases e
    exact ⟨h, grows_same rfl rfl rfl, name, rfl, hfound⟩
  | none =>
  simp only [hfound] at e
  split at e
  · rename_i hroom
    cases e0 : malloc n.server.heap 16 with
    | mk exchange h0 =>
    cases e1 : strdup h0 name with
    | mk dup h1 =>
    obtain ⟨n0, f0, g0⟩ := Alloc.Heap.grants_request e0
    obtain ⟨n1, f1, g1⟩ := Alloc.Heap.grants_request e1
    have hsome := g0.mpr (h.granted _)
    have hdup := g1.mpr (by rw [f0]; exact h.granted _)
    cases exchange with
    | none => cases hsome
    | some exchange =>
    cases dup with
    | none => cases hdup
    | some dup =>
    have hhandle := malloc_handle e0
    simp only [e0, e1, Option.map_some] at e
    cases e
    have hge : n.server.heap.next ≤ exchange.request := Nat.le_of_eq hhandle.symm
    have hlt : exchange.request < h1.next := by omega
    have hg : h1.AllGranted := by
      intro k
      rw [f1, f0]
      exact h.granted k
    have hname : (⟨some name, type⟩ : Exchange).name = some name := rfl
    obtain ⟨hr, hgrows, hlookup⟩ := addExchange_does h hroom hfound hname hge hlt hg
    exact ⟨hr, hgrows, name, rfl, hlookup⟩
  · cases e
    exact ⟨h, grows_same rfl rfl rfl, rfl⟩

theorem bindQueue_does {n : Node} (h : Registered n) (exchange queue : Option Nat) (routingKey : Option CString) :
    Registered (brokerBindQueue exchange queue routingKey n).2 ∧ Grows n (brokerBindQueue exchange queue routingKey n).2 ∧
      Reports n (brokerBindQueue exchange queue routingKey n).2 (.bindQueue exchange queue routingKey)
        (.val (brokerBindQueue exchange queue routingKey n).1) := by
  have hnothing : Registered n ∧ Grows n n ∧ Reports n n (.bindQueue exchange queue routingKey) (.val 0) :=
    ⟨h, grows_same rfl rfl rfl, Or.inl ⟨rfl, rfl⟩⟩
  cases exchange with
  | none => exact hnothing
  | some exchange =>
  cases queue with
  | none => exact hnothing
  | some queue =>
  by_cases hroom : n.server.broker.bindings.length < MAX_BINDINGS
  · cases e0 : malloc n.server.heap 24 with
    | mk block h0 =>
    obtain ⟨n0, f0, g0⟩ := Alloc.Heap.grants_request e0
    have hsome := g0.mpr (h.granted _)
    cases block with
    | none => cases hsome
    | some block =>
    obtain ⟨hkey, hle, hg⟩ := @dupKey_granted routingKey h0 fun k => by rw [f0]; exact h.granted k
    have hbound : brokerBindQueue (some exchange) (some queue) routingKey n =
        (1, n.addBinding ⟨exchange, queue, routingKey⟩ (dupKey routingKey h0).2 hroom) := by
      simp only [brokerBindQueue, dif_pos hroom, e0, hkey]
    rw [hbound]
    have hle : n.server.heap.next ≤ (dupKey routingKey h0).2.next := by omega
    refine ⟨⟨h.queues.mono hle, h.exchanges.mono hle, hg, h.slots⟩,
      ⟨Directory.Extends.refl _, Directory.Extends.refl _, List.prefix_append _ _⟩, Or.inr ⟨rfl, exchange, queue, rfl, rfl, ?_⟩⟩
    exact List.mem_append_right _ (List.mem_singleton_self _)
  · have hfull : brokerBindQueue (some exchange) (some queue) routingKey n = (0, n) := by
      simp only [brokerBindQueue, dif_neg hroom]
    rw [hfull]
    exact hnothing

theorem routeToCopies_next {message : Message} {b : Binding} {s s' : Server} {cs : List Stored}
    (h : routeToCopies message b s = some (s', cs)) : s.heap.next ≤ s'.heap.next := by
  have hle := (clone_ledger message s.heap).next_le
  rcases routeToCopies_cases h with ⟨heap, e, rfl, -⟩ | ⟨clone, heap, e, ⟨-, rfl, -⟩ | ⟨-, n, -, hforward⟩⟩
  · rwa [e] at hle
  · rwa [e] at hle
  · obtain ⟨outlets, rfl⟩ := counting_outlets hforward
    rwa [e] at hle

theorem routeCopies_next {exchange : Nat} {message : Message} {bs : List Binding} {s s' : Server} {cs : List Stored}
    (h : routeCopies exchange message bs s = some (s', cs)) : s.heap.next ≤ s'.heap.next := by
  induction bs generalizing s cs with
  | nil =>
    cases h
    exact Nat.le_refl _
  | cons b bs ih =>
    rcases routeCopies_cases h with ⟨-, hrest⟩ | ⟨s1, c1, c2, -, hto, hrest, -⟩
    · exact ih hrest
    · exact Nat.le_trans (routeToCopies_next hto) (ih hrest)

theorem publish_next {exchange : Nat} {m : Message} {s s' : Server} {cs : List Stored}
    (h : publishCopies exchange m s = some (s', cs)) : s.heap.next ≤ s'.heap.next := by
  have hle := (clone_ledger m s.heap).next_le
  rcases publishCopies_cases h with ⟨heap, e, rfl, -⟩ | ⟨clone, heap, s1, e, hrouted, rfl⟩
  · rwa [e] at hle
  · rw [e] at hle
    have hnext : heap.next ≤ s1.heap.next := routeCopies_next hrouted
    have hafter : (afterRouting clone s1 cs.length).heap.next = s1.heap.next := by
      unfold afterRouting
      split
      · rfl
      · rfl
    have hlast : s1.heap.next ≤ (afterRouting clone s1 cs.length).heap.next := Nat.le_of_eq hafter.symm
    split
    · exact Nat.le_trans hle (Nat.le_trans hnext hlast)
    · exact Nat.le_trans hle (Nat.le_trans hnext hlast)

theorem publish_does {n : Node} (h : Registered n) {exchange : Nat} {m : Message} {s' : Server} {v : Nat}
    (e : brokerPublish exchange m n.server = some (v, s')) :
    Registered { n with server := s' } ∧ Grows n { n with server := s' } ∧
      Reports n { n with server := s' } (.publish exchange m) (.val v) := by
  rw [publish_copies] at e
  obtain ⟨⟨s1, cs⟩, hstored, hs⟩ := Option.map_eq_some_iff.mp e
  obtain ⟨-, rfl⟩ := Prod.mk.inj hs
  obtain ⟨happ, -⟩ := publish_appends h.slots hstored
  have hle := publish_next hstored
  have hbroker : s1.broker = n.server.broker := by rw [happ.tables]
  have hqueues : queueDirectory { n with server := s1 } = queueDirectory n := by
    refine congrArg (Directory.mk _) (funext fun q => ?_)
    rw [happ.queues q]
  have hexchanges : exchangeDirectory { n with server := s1 } = exchangeDirectory n := by
    unfold exchangeDirectory
    rw [happ.exchanges, hbroker]
  refine ⟨⟨?_, ?_, happ.granted h.granted, happ.slots⟩, grows_same hqueues hexchanges (by rw [hbroker]), rfl, hbroker⟩
  · rw [hqueues]
    exact h.queues.mono hle
  · rw [hexchanges]
    exact h.exchanges.mono hle

theorem getQueue_is {n : Node} (h : Registered n) (name : Option CString) :
    brokerGetQueue n name = some (name.bind (queueDirectory n).lookup) := by
  cases name with
  | none => rfl
  | some name => exact h.findQueue name

theorem getExchange_is {n : Node} (h : Registered n) (name : Option CString) :
    brokerGetExchange n.server name = some (name.bind (exchangeDirectory n).lookup) := by
  cases name with
  | none => rfl
  | some name => exact h.findExchange name

/-- Whatever the call. -/
theorem call_keeps {n n' : Node} (h : Registered n) {c : RegistryCall} {a : Answer} (e : c.run n = some (a, n')) :
    Registered n' ∧ Grows n n' ∧ Reports n n' c a := by
  have hsame : Grows n n := grows_same rfl rfl rfl
  cases c with
  | createQueue name new =>
    obtain ⟨⟨q, n1⟩, hmade, hr⟩ := Option.map_eq_some_iff.mp e
    cases hr
    exact createQueue_does h hmade
  | createExchange name type =>
    obtain ⟨⟨x, n1⟩, hmade, hr⟩ := Option.map_eq_some_iff.mp e
    cases hr
    exact createExchange_does h hmade
  | bindQueue exchange queue routingKey =>
    cases e
    exact bindQueue_does h exchange queue routingKey
  | publish exchange message =>
    obtain ⟨⟨v, s'⟩, hpublished, hr⟩ := Option.map_eq_some_iff.mp e
    cases hr
    exact publish_does h hpublished
  | getQueue name =>
    obtain ⟨q, hfound, hr⟩ := Option.map_eq_some_iff.mp e
    cases hr
    rw [getQueue_is h, Option.some.injEq] at hfound
    exact ⟨h, hsame, rfl, hfound.symm⟩
  | getExchange name =>
    obtain ⟨x, hfound, hr⟩ := Option.map_eq_some_iff.mp e
    cases hr
    rw [getExchange_is h, Option.some.injEq] at hfound
    exact ⟨h, hsame, rfl, hfound.symm⟩

/-! ## Runs -/

theorem calls_keep {n n' : Node} {log : List (RegistryCall × Answer)} (h : Registered n) (hrun : Calls n log n') :
    Registered n' ∧ Grows n n' := by
  induction hrun with
  | nil n => exact ⟨h, grows_same rfl rfl rfl⟩
  | cons e _ ih =>
    obtain ⟨h1, hgrows, -⟩ := call_keeps h e
    obtain ⟨h', hgrows'⟩ := ih h1
    exact ⟨h', hgrows.trans hgrows'⟩

theorem calls_split {n n' : Node} {before after : List (RegistryCall × Answer)} {c : RegistryCall} {a : Answer}
    (hrun : Calls n (before ++ (c, a) :: after) n') :
    ∃ n1 n2, Calls n before n1 ∧ c.run n1 = some (a, n2) ∧ Calls n2 after n' := by
  induction before generalizing n with
  | nil =>
    cases hrun with
    | cons e hrest => exact ⟨n, _, .nil n, e, hrest⟩
  | cons d before ih =>
    cases hrun with
    | cons e hrest =>
      obtain ⟨n1, n2, hbefore, hcall, hafter⟩ := ih hrest
      exact ⟨n1, n2, .cons e hbefore, hcall, hafter⟩

theorem fresh_registered {n : Node} (hf : Fresh n) (hg : n.server.heap.AllGranted) : Registered n := by
  refine ⟨?_, ?_, hg, hf.slots⟩
  · rw [queueDirectory, hf.queues]
    exact Directory.sound_empty _ _
  · rw [exchangeDirectory, hf.exchanges]
    exact Directory.sound_empty _ _

/-! ## Stability -/

/-- Names are there and distinct, and the tables have room for what is in them. -/
structure TablesOk (n : Node) : Prop where
  queueNames : (n.queueTable.map fun q => (n.server.queues q).name).Nodup
  queuesNamed : ∀ q ∈ n.queueTable, (n.server.queues q).name ≠ none
  exchangeNames : (n.server.broker.exchanges.map fun e => (n.server.exchanges e).name).Nodup
  exchangesNamed : ∀ e ∈ n.server.broker.exchanges, (n.server.exchanges e).name ≠ none
  queueCount : n.queueTable.length ≤ MAX_QUEUES
  exchangeCount : n.server.broker.exchanges.length ≤ MAX_EXCHANGES
  bindingCount : n.server.broker.bindings.length ≤ MAX_BINDINGS

/-- What a call made at `n1`, which left `n2`, still says at a later state `n`. -/
def StillSays (n1 n2 n : Node) : RegistryCall → Answer → Prop
  | .createQueue name _, .handle (some q) =>
    (∀ new, RegistryCall.run n (.createQueue name new) = some (.handle (some q), n)) ∧
      RegistryCall.run n (.getQueue name) = some (.handle (some q), n)
  | .createExchange name _, .handle (some e) =>
    (∀ type, RegistryCall.run n (.createExchange name type) = some (.handle (some e), n)) ∧
      RegistryCall.run n (.getExchange name) = some (.handle (some e), n)
  | .createQueue _ _, .handle none | .createExchange _ _, .handle none => n2 = n1.withHeap n2.server.heap
  | .bindQueue exchange queue routingKey, .val v =>
    (v = 0 ∧ n2 = n1.withHeap n2.server.heap) ∨
      (v = 1 ∧ ∃ e q, exchange = some e ∧ queue = some q ∧ ⟨e, q, routingKey⟩ ∈ n.server.broker.bindings ∧
        (e ∈ n1.server.broker.exchanges → q ∈ n1.queueTable → e ∈ n.server.broker.exchanges ∧ q ∈ n.queueTable))
  | _, _ => True

theorem createQueue_again {n : Node} (h : Registered n) {name : CString} {q : Nat} (hq : (queueDirectory n).lookup name = some q)
    (new : NewQueue) : RegistryCall.run n (.createQueue (some name) new) = some (.handle (some q), n) := by
  have hmade : brokerCreateQueue (some name) new n = some (some q, n) := by rw [brokerCreateQueue, h.findQueue, hq]
  rw [RegistryCall.run, hmade]
  rfl

theorem createExchange_again {n : Node} (h : Registered n) {name : CString} {e : Nat}
    (he : (exchangeDirectory n).lookup name = some e) (type : ExchangeType) :
    RegistryCall.run n (.createExchange (some name) type) = some (.handle (some e), n) := by
  have hmade : brokerCreateExchange (some name) type n = some (some e, n) := by rw [brokerCreateExchange, h.findExchange, he]
  rw [RegistryCall.run, hmade]
  rfl

theorem still_says {n1 n2 n : Node} {c : RegistryCall} {a : Answer} (h : Registered n) (h12 : Grows n1 n2) (h2 : Grows n2 n)
    (hr : Reports n1 n2 c a) : StillSays n1 n2 n c a := by
  cases c with
  | createQueue name new =>
    cases a with
    | val v => trivial
    | handle q =>
    cases q with
    | none => exact hr
    | some q =>
      obtain ⟨k, rfl, hq⟩ := hr
      have hq := Directory.lookup_extends h.queues h2.queues hq
      refine ⟨createQueue_again h hq, ?_⟩
      rw [RegistryCall.run, getQueue_is h, Option.bind_some, hq]
      rfl
  | createExchange name type =>
    cases a with
    | val v => trivial
    | handle e =>
    cases e with
    | none => exact hr
    | some e =>
      obtain ⟨k, rfl, he⟩ := hr
      have he := Directory.lookup_extends h.exchanges h2.exchanges he
      refine ⟨createExchange_again h he, ?_⟩
      rw [RegistryCall.run, getExchange_is h, Option.bind_some, he]
      rfl
  | bindQueue exchange queue routingKey =>
    cases a with
    | handle q => trivial
    | val v =>
      have hgrows := h12.trans h2
      refine hr.imp id ?_
      rintro ⟨hv, e, q, he, hq, hmem⟩
      exact ⟨hv, e, q, he, hq, h2.bindings.subset hmem,
        fun hex hqx => ⟨hgrows.exchanges.table.subset hex, hgrows.queues.table.subset hqx⟩⟩
  | publish exchange message => trivial
  | getQueue name => trivial
  | getExchange name => trivial

theorem publish_returns {n : Node} (h : Registered n) (exchange : Nat) (m : Message) :
    ∃ r, brokerPublish exchange m n.server = some r := by
  rw [publish_copies]
  by_cases hm : Copyable m
  · obtain ⟨s', cs, e, -⟩ := publish_stores h.slots h.granted hm exchange
    rw [e]
    exact ⟨_, rfl⟩
  · have hnone := not_copyable_clone hm n.server.heap
    cases e : messageClone m n.server.heap with
    | mk c heap =>
    rw [e] at hnone
    obtain rfl : c = none := hnone
    rw [publishCopies, e]
    exact ⟨_, rfl⟩

/-- With names in the tables every call returns. -/
theorem call_returns {n : Node} (h : Registered n) (c : RegistryCall) : ∃ a n', c.run n = some (a, n') := by
  have hmap : ∀ {γ : Type} {o : Option γ} (f : γ → Answer × Node), (∃ r, o = some r) → ∃ a n', o.map f = some (a, n') := by
    rintro γ o f ⟨r, rfl⟩
    exact ⟨_, _, rfl⟩
  cases c with
  | createQueue name new =>
    refine hmap _ ?_
    cases name with
    | none => exact ⟨_, rfl⟩
    | some name =>
      rw [brokerCreateQueue, h.findQueue]
      dsimp only
      split
      · rename_i hno
        cases hno
      · exact ⟨_, rfl⟩
      · split
        · split
          · exact ⟨_, rfl⟩
          · exact ⟨_, rfl⟩
        · exact ⟨_, rfl⟩
  | createExchange name type =>
    refine hmap _ ?_
    cases name with
    | none => exact ⟨_, rfl⟩
    | some name =>
      rw [brokerCreateExchange, h.findExchange]
      dsimp only
      split
      · rename_i hno
        cases hno
      · exact ⟨_, rfl⟩
      · split
        · split
          · exact ⟨_, rfl⟩
          · exact ⟨_, rfl⟩
        · exact ⟨_, rfl⟩
  | bindQueue exchange queue routingKey => exact ⟨_, _, rfl⟩
  | publish exchange message => exact hmap _ (publish_returns h exchange message)
  | getQueue name => exact hmap _ ⟨_, getQueue_is h name⟩
  | getExchange name => exact hmap _ ⟨_, getExchange_is h name⟩

theorem registries_stable {start n : Node} (hf : Fresh start) (hg : start.server.heap.AllGranted)
    {log : List (RegistryCall × Answer)} (hrun : Calls start log n) :
    TablesOk n ∧ (∀ c : RegistryCall, ∃ a n', c.run n = some (a, n')) ∧
      ∀ before c a after, log = before ++ (c, a) :: after →
        ∃ n1 n2, Calls start before n1 ∧ c.run n1 = some (a, n2) ∧ Calls n2 after n ∧ StillSays n1 n2 n c a := by
  obtain ⟨h, -⟩ := calls_keep (fresh_registered hf hg) hrun
  refine ⟨⟨h.queues.distinct, h.queues.named, h.exchanges.distinct, h.exchanges.named, n.queuesFit,
    n.server.broker.exchangesFit, n.server.broker.bindingsFit⟩, call_returns h, ?_⟩
  rintro before c a after rfl
  obtain ⟨n1, n2, hbefore, hcall, hafter⟩ := calls_split hrun
  obtain ⟨h1, -⟩ := calls_keep (fresh_registered hf hg) hbefore
  obtain ⟨h2, hgrows, hreports⟩ := call_keeps h1 hcall
  exact ⟨n1, n2, hbefore, hcall, hafter, still_says h hgrows (calls_keep h2 hafter).2 hreports⟩

/-- A queue, an exchange and a binding, and the queue's name again. -/
def namedTwice : List (RegistryCall × Answer) :=
  [(.createQueue (some twoBytes.exchange) (newQueue 4), .handle (some 100)),
    (.createExchange (some twoBytes.exchange) .fanout, .handle (some 104)),
    (.bindQueue (some 104) (some 100) none, .val 1),
    (.createQueue (some twoBytes.exchange) (newQueue 2), .handle (some 100)),
    (.createQueue none (newQueue 2), .handle none)]

theorem registries_stable_named_twice : ∃ n, Calls aNode namedTwice n ∧
    TablesOk n ∧ (∀ c : RegistryCall, ∃ a n', c.run n = some (a, n')) ∧
      ∀ before c a after, namedTwice = before ++ (c, a) :: after →
        ∃ n1 n2, Calls aNode before n1 ∧ c.run n1 = some (a, n2) ∧ Calls n2 after n ∧ StillSays n1 n2 n c a := by
  have hrun : ∃ n, Calls aNode namedTwice n :=
    ⟨_, .cons rfl (.cons rfl (.cons rfl (.cons rfl (.cons rfl (.nil _)))))⟩
  obtain ⟨n, hrun⟩ := hrun
  exact ⟨n, hrun, registries_stable aNode_fresh (fun _ => rfl) hrun⟩

end RabbitMQ.Core
