/-
  RabbitMQ.Core.Creating — the functions that create something, when requests for memory
  are refused.

  Each checks its `malloc`s and, where one fails, frees what it has and returns NULL or 0.
  None checks its `strdup`s: a name or key that could not be copied is stored as NULL, and
  the function says that it succeeded. A call gives all or nothing exactly when, with every
  request it checks granted, its copies of strings are granted too, and it returns at all:
  a NULL name stored before stops the search of the broker's tables (`all_or_nothing_iff`,
  `an_exchange_is_created_without_a_name`).
-/

import RabbitMQ.Core.Registry

namespace RabbitMQ.Core

open Lib

/-! ## The calls -/

inductive Creation where
  | message (exchange routingKey : Option CString) (body : Option Bytes) (bodySize : UInt64)
  | clone (m : Message)
  | queue (name : Option CString) (new : NewQueue)
  | brokerQueue (name : Option CString) (new : NewQueue)
  | brokerExchange (name : Option CString) (type : ExchangeType)
  | binding (exchange queue : Option Nat) (routingKey : Option CString)

def Node.withHeap (n : Node) (heap : Heap) : Node := { n with server := { n.server with heap } }

/-- The broker after a call and, unless it returned NULL or 0, the strings of what it
    returned or added, as they are stored. -/
structure Outcome where
  node : Node
  stored : Option (List (Option CString))

/-- none where the call does not return. -/
def Creation.run (n : Node) : Creation → Option Outcome
  | .message exchange routingKey body bodySize =>
    let r := messageCreate exchange routingKey body bodySize n.server.heap
    some ⟨n.withHeap r.2, r.1.map fun m => [m.exchange, m.routingKey]⟩
  | .clone m =>
    let r := messageClone m n.server.heap
    some ⟨n.withHeap r.2, r.1.map fun c => [c.exchange, c.routingKey]⟩
  | .queue name new =>
    let r := queueCreate name new.capacity new.garbage new.garbageInfo new.sync n.server.heap
    some ⟨n.withHeap r.2, r.1.map fun q => [q.name]⟩
  | .brokerQueue name new =>
    (brokerCreateQueue name new n).map fun r => ⟨r.2, r.1.map fun q => [(r.2.server.queues q).name]⟩
  | .brokerExchange name type =>
    (brokerCreateExchange name type n).map fun r => ⟨r.2, r.1.map fun e => [(r.2.server.exchanges e).name]⟩
  | .binding exchange q routingKey =>
    let r := brokerBindQueue exchange q routingKey n
    some ⟨r.2, if r.1 = 0 then none else some [r.2.server.broker.bindings.getLast?.bind (·.routingKey)]⟩

/-- The strings a call is given. -/
def Creation.given : Creation → List (Option CString)
  | .message exchange routingKey _ _ => [exchange, routingKey]
  | .clone m => [m.exchange, m.routingKey]
  | .queue name _ | .brokerQueue name _ | .brokerExchange name _ => [name]
  | .binding _ _ routingKey => [routingKey]

/-- The call returns, either with every string stored, or with the broker as it was and
    nothing kept of what it was granted. -/
def AllOrNothing (n : Node) (c : Creation) : Prop :=
  ∃ o, c.run n = some o ∧ (∀ strings, o.stored = some strings → strings = c.given) ∧
    (o.stored = none → ∃ heap, o.node = n.withHeap heap ∧ Alloc.Ledger n.server.heap heap [])

/-! ## What must be granted -/

/-- The synchronization objects of a queue can be initialized, and it has a slot. -/
def NewQueue.Usable (new : NewQueue) : Prop :=
  new.capacity ≠ 0 ∧ new.sync.mutex = true ∧ new.sync.notEmpty = true ∧ new.sync.notFull = true

instance (new : NewQueue) : Decidable new.Usable := inferInstanceAs (Decidable (_ ∧ _ ∧ _ ∧ _))

/-- The search of the broker's table, if the call makes one, meets no NULL name. -/
def Creation.Returns (n : Node) : Creation → Prop
  | .brokerQueue (some name) _ => findQueue n.server.queues name n.queueTable ≠ none
  | .brokerExchange (some name) _ => findExchange n.server.exchanges name n.server.broker.exchanges ≠ none
  | _ => True

/-- The call has something to create. -/
def Creation.Attempts (n : Node) : Creation → Prop
  | .message exchange routingKey body bodySize => exchange ≠ none ∧ routingKey ≠ none ∧ ¬ (body = none ∧ 0 < bodySize)
  | .clone m => m.exchange ≠ none ∧ m.routingKey ≠ none ∧ ¬ (m.body = none ∧ 0 < m.bodySize)
  | .queue name new => name ≠ none ∧ new.Usable
  | .brokerQueue (some name) new =>
    findQueue n.server.queues name n.queueTable = some none ∧ n.queueTable.length < MAX_QUEUES ∧ new.Usable
  | .brokerExchange (some name) _ =>
    findExchange n.server.exchanges name n.server.broker.exchanges = some none ∧
      n.server.broker.exchanges.length < MAX_EXCHANGES
  | .brokerQueue none _ | .brokerExchange none _ => False
  | .binding exchange q _ => exchange ≠ none ∧ q ≠ none ∧ n.server.broker.bindings.length < MAX_BINDINGS

/-- Of its requests for memory, those it checks. -/
def Creation.checked : Creation → List Nat
  | .message _ _ _ bodySize => 0 :: if 0 < bodySize then [3] else []
  | .clone m => 0 :: if 0 < m.bodySize then [3] else []
  | .queue _ _ | .brokerQueue _ _ => [0, 2, 3]
  | .brokerExchange _ _ | .binding _ _ _ => [0]

/-- Those of its `strdup`s. -/
def Creation.copies : Creation → List Nat
  | .message _ _ _ _ | .clone _ => [1, 2]
  | .queue _ _ | .brokerQueue _ _ | .brokerExchange _ _ => [1]
  | .binding _ _ routingKey => if routingKey = none then [] else [1]

/-- A call that gets what it checks gets its copies as well. -/
def CopiesGranted (n : Node) (c : Creation) : Prop :=
  c.Returns n ∧ (c.Attempts n → n.server.heap.Grants c.checked → n.server.heap.Grants c.copies)

/-- It is enough to say what the call does when it has all it checks, and when it has not. -/
theorem all_or_nothing_of {n : Node} {c : Creation} {o : Outcome} (hrun : c.run n = some o) (hreturns : c.Returns n)
    (hnone : o.stored = none → ∃ heap, o.node = n.withHeap heap ∧ Alloc.Ledger n.server.heap heap [])
    (hmade : c.Attempts n → n.server.heap.Grants c.checked →
      ∃ strings, o.stored = some strings ∧ (strings = c.given ↔ n.server.heap.Grants c.copies))
    (helse : ¬ (c.Attempts n ∧ n.server.heap.Grants c.checked) → ∀ strings, o.stored = some strings → strings = c.given) :
    AllOrNothing n c ↔ CopiesGranted n c := by
  constructor
  · intro h
    refine ⟨hreturns, ?_⟩
    intro hattempts hchecked
    obtain ⟨o', hrun', hall, -⟩ := h
    rw [hrun, Option.some.injEq] at hrun'
    obtain ⟨strings, hstored, hiff⟩ := hmade hattempts hchecked
    exact hiff.mp (hall strings (by rw [← hrun', hstored]))
  · intro h
    refine ⟨o, hrun, ?_, hnone⟩
    intro strings hstored
    by_cases hgets : c.Attempts n ∧ n.server.heap.Grants c.checked
    · obtain ⟨strings', hstored', hiff⟩ := hmade hgets.1 hgets.2
      rw [hstored, Option.some.injEq] at hstored'
      rw [hstored']
      exact hiff.mpr (h.2 hgets.1 hgets.2)
    · exact helse hgets strings hstored

/-- A search that meets a NULL name does not return. -/
theorem all_or_nothing_lost {n : Node} {c : Creation} (hrun : c.run n = none) (hreturns : ¬ c.Returns n) :
    AllOrNothing n c ↔ CopiesGranted n c := by
  refine iff_of_false ?_ fun h => hreturns h.1
  rintro ⟨o, ho, -⟩
  rw [hrun] at ho
  cases ho

/-- With nothing to create the broker is as it was. -/
theorem all_or_nothing_unchanged {n : Node} {c : Creation} {stored : Option (List (Option CString))}
    (hrun : c.run n = some ⟨n, stored⟩) (hreturns : c.Returns n) (hattempts : ¬ c.Attempts n)
    (hgiven : ∀ strings, stored = some strings → strings = c.given) : AllOrNothing n c ↔ CopiesGranted n c :=
  all_or_nothing_of hrun hreturns (fun _ => ⟨_, rfl, Alloc.ledger_refl _⟩) (fun h => absurd h hattempts) fun _ => hgiven

/-- A request that is checked was refused, and what was granted before is freed. -/
theorem all_or_nothing_refused {n : Node} {c : Creation} {heap : Heap} (hrun : c.run n = some ⟨n.withHeap heap, none⟩)
    (hreturns : c.Returns n) (hl : Alloc.Ledger n.server.heap heap [])
    (hrefused : ¬ (c.Attempts n ∧ n.server.heap.Grants c.checked)) : AllOrNothing n c ↔ CopiesGranted n c :=
  all_or_nothing_of hrun hreturns (fun _ => ⟨heap, rfl, hl⟩) (fun hattempts hchecked => absurd ⟨hattempts, hchecked⟩ hrefused)
    fun _ strings hstored => by cases hstored

/-! ## Messages -/

/-- A copy of a string is there when its request was granted. -/
theorem copied_iff {h h' : Heap} {s : CString} {p : Option Ptr} (e : strdup h s = (p, h')) :
    (p.map fun _ => s) = some s ↔ h.fails h.next = false := by
  rw [← (Alloc.Heap.grants_request e).2.2]
  cases p with
  | none => simp
  | some p => simp

theorem create_grants (exchange routingKey : CString) {body : Option Bytes} {bodySize : UInt64}
    (hb : ¬ (body = none ∧ 0 < bodySize)) (h : Heap) :
    ((messageCreate (some exchange) (some routingKey) body bodySize h).1.isSome = true ↔
        h.Grants (0 :: if 0 < bodySize then [3] else [])) ∧
      ∀ m, (messageCreate (some exchange) (some routingKey) body bodySize h).1 = some m →
        ([m.exchange, m.routingKey] = [some exchange, some routingKey] ↔ h.Grants [1, 2]) := by
  simp only [messageCreate, if_neg hb]
  cases e0 : mallocMessage h with
  | mk message h0 =>
  obtain ⟨n0, f0, g0⟩ := Alloc.Heap.grants_request e0
  cases message with
  | none =>
    have hno : h.fails h.next = true := by simpa using g0
    refine ⟨?_, fun m hm => by cases hm⟩
    simp [Alloc.Heap.Grants, hno]
  | some message =>
  have hyes : h.fails h.next = false := by simpa using g0
  dsimp only
  cases e1 : strdup h0 exchange with
  | mk dupExchange h1 =>
  obtain ⟨n1, f1, -⟩ := Alloc.Heap.grants_request e1
  have c1 := copied_iff e1
  cases e2 : strdup h1 routingKey with
  | mk dupKey h2 =>
  obtain ⟨n2, f2, -⟩ := Alloc.Heap.grants_request e2
  have c2 := copied_iff e2
  rw [f0, n0] at c1
  rw [f1, n1, f0, n0] at c2
  have hstrings : [dupExchange.map fun _ => exchange, dupKey.map fun _ => routingKey] = [some exchange, some routingKey] ↔
      h.Grants [1, 2] := by
    rw [List.cons.injEq, List.cons.injEq, c1, c2]
    simp [Alloc.Heap.Grants]
  dsimp only
  by_cases hsize : 0 < bodySize
  · simp only [if_pos hsize]
    cases e3 : malloc h2 bodySize.toNat with
    | mk block h3 =>
    obtain ⟨-, -, g3⟩ := Alloc.Heap.grants_request e3
    rw [f2, n2, f1, n1, f0, n0] at g3
    cases block with
    | none =>
      have hno : h.fails (h.next + 1 + 1 + 1) = true := by simpa using g3
      refine ⟨?_, fun m hm => by cases hm⟩
      simp [Alloc.Heap.Grants, hno]
    | some block =>
      have hbody : h.fails (h.next + 1 + 1 + 1) = false := by simpa using g3
      refine ⟨?_, fun m hm => by cases hm; exact hstrings⟩
      simp [Alloc.Heap.Grants, hyes, hbody]
  · simp only [if_neg hsize]
    refine ⟨?_, fun m hm => by cases hm; exact hstrings⟩
    simp [Alloc.Heap.Grants, hyes]

/-- The strings of a message, if it was made. -/
def strings (m : Option Message) : Option (List (Option CString)) := m.map fun m => [m.exchange, m.routingKey]

theorem create_stored (exchange routingKey : Option CString) (body : Option Bytes) (bodySize : UInt64) (h : Heap) :
    (exchange ≠ none ∧ routingKey ≠ none ∧ ¬ (body = none ∧ 0 < bodySize) → h.Grants (0 :: if 0 < bodySize then [3] else []) →
      ∃ kept, strings (messageCreate exchange routingKey body bodySize h).1 = some kept ∧
        (kept = [exchange, routingKey] ↔ h.Grants [1, 2])) ∧
    ∀ kept, strings (messageCreate exchange routingKey body bodySize h).1 = some kept →
      (exchange ≠ none ∧ routingKey ≠ none ∧ ¬ (body = none ∧ 0 < bodySize)) ∧
        h.Grants (0 :: if 0 < bodySize then [3] else []) := by
  by_cases hargs : exchange ≠ none ∧ routingKey ≠ none ∧ ¬ (body = none ∧ 0 < bodySize)
  · obtain ⟨hexchange, hkey, hbody⟩ := hargs
    obtain ⟨exchange, rfl⟩ := Option.ne_none_iff_exists'.mp hexchange
    obtain ⟨routingKey, rfl⟩ := Option.ne_none_iff_exists'.mp hkey
    obtain ⟨hmade, hkept⟩ := create_grants exchange routingKey hbody h
    refine ⟨?_, ?_⟩
    · intro _ hg
      obtain ⟨m, hm⟩ := Option.isSome_iff_exists.mp (hmade.mpr hg)
      exact ⟨_, by rw [hm]; rfl, hkept m hm⟩
    · intro kept hsome
      obtain ⟨m, hm, -⟩ := Option.map_eq_some_iff.mp hsome
      exact ⟨⟨hexchange, hkey, hbody⟩, hmade.mp (by rw [hm]; rfl)⟩
  · refine ⟨fun h => absurd h hargs, ?_⟩
    intro kept hsome
    refine absurd ?_ hargs
    obtain ⟨m, hm, -⟩ := Option.map_eq_some_iff.mp hsome
    unfold messageCreate at hm
    split at hm
    · refine ⟨Option.some_ne_none _, Option.some_ne_none _, ?_⟩
      intro hb
      rw [if_pos hb] at hm
      cases hm
    · cases hm

theorem message_all_or_nothing (n : Node) (exchange routingKey : Option CString) (body : Option Bytes) (bodySize : UInt64) :
    AllOrNothing n (.message exchange routingKey body bodySize) ↔
      CopiesGranted n (.message exchange routingKey body bodySize) := by
  obtain ⟨hmade, honly⟩ := create_stored exchange routingKey body bodySize n.server.heap
  refine all_or_nothing_of rfl trivial ?_ hmade fun hgets kept hsome => absurd (honly kept hsome) hgets
  intro hnone
  have hl := create_ledger exchange routingKey body bodySize n.server.heap
  rw [Option.map_eq_none_iff.mp hnone] at hl
  exact ⟨_, rfl, hl⟩

theorem clone_strings (m : Message) (h : Heap) :
    strings (messageClone m h).1 = strings (messageCreate m.exchange m.routingKey m.body m.bodySize h).1 := by
  unfold messageClone
  cases messageCreate m.exchange m.routingKey m.body m.bodySize h with
  | mk c heap =>
  cases c with
  | none => rfl
  | some c => rfl

theorem clone_all_or_nothing (n : Node) (m : Message) : AllOrNothing n (.clone m) ↔ CopiesGranted n (.clone m) := by
  obtain ⟨hmade, honly⟩ := create_stored m.exchange m.routingKey m.body m.bodySize n.server.heap
  rw [← clone_strings] at hmade honly
  refine all_or_nothing_of rfl trivial ?_ hmade fun hgets kept hsome => absurd (honly kept hsome) hgets
  intro hnone
  have hl := clone_ledger m n.server.heap
  rw [Option.map_eq_none_iff.mp hnone] at hl
  exact ⟨_, rfl, hl⟩

/-! ## Queues -/

/-- What `queue_create` frees where it gives up: its last blocks first. -/
theorem ledger_unwound {h h' : Heap} {queue : Ptr} {name : Option Ptr} (hl : Alloc.Ledger h h' ([queue] ++ name.toList)) :
    Alloc.Ledger h ((h'.frees name.toList).free queue) [] := by
  have hname : Alloc.Ledger h (h'.frees name.toList) [queue] := Alloc.Ledger.frees (hl.perm List.perm_append_comm)
  have hall : Alloc.Ledger h (h'.frees name.toList) ([queue] ++ []) := hname
  exact hall.frees

theorem queue_grants (name : CString) (new : NewQueue) (h : Heap) :
    ((queueCreate (some name) new.capacity new.garbage new.garbageInfo new.sync h).1.isSome = true ↔
        new.Usable ∧ h.Grants [0, 2, 3]) ∧
      (∀ q, (queueCreate (some name) new.capacity new.garbage new.garbageInfo new.sync h).1 = some q →
        ([q.name] = [some name] ↔ h.Grants [1])) ∧
      ((queueCreate (some name) new.capacity new.garbage new.garbageInfo new.sync h).1 = none →
        Alloc.Ledger h (queueCreate (some name) new.capacity new.garbage new.garbageInfo new.sync h).2 []) := by
  unfold queueCreate NewQueue.Usable
  dsimp only
  by_cases hcap : new.capacity = 0
  · rw [if_pos hcap]
    exact ⟨by simp [hcap], (fun q hq => by cases hq), fun _ => Alloc.ledger_refl h⟩
  rw [if_neg hcap]
  have l0 := Alloc.ledger_request h Kind.plain 224
  cases e0 : malloc h 224 with
  | mk queue h0 =>
  rw [show h.request Kind.plain 224 = (queue, h0) from e0] at l0
  obtain ⟨n0, f0, g0⟩ := Alloc.Heap.grants_request e0
  cases queue with
  | none =>
    have hno : h.fails h.next = true := by simpa using g0
    exact ⟨by simp [Alloc.Heap.Grants, hno], (fun q hq => by cases hq), fun _ => l0⟩
  | some queue =>
  have hyes : h.fails h.next = false := by simpa using g0
  dsimp only
  have l1 := l0.trans (Alloc.ledger_request h0 Kind.plain (name.strlen + 1))
  cases e1 : strdup h0 name with
  | mk dup h1 =>
  rw [show h0.request Kind.plain (name.strlen + 1) = (dup, h1) from e1] at l1
  obtain ⟨n1, f1, -⟩ := Alloc.Heap.grants_request e1
  have c1 := copied_iff e1
  rw [f0, n0] at c1
  dsimp only
  have l2 := l1.trans (Alloc.ledger_request h1 Kind.plain (new.capacity * 8).toNat)
  cases e2 : malloc h1 (new.capacity * 8).toNat with
  | mk messages h2 =>
  rw [show h1.request Kind.plain (new.capacity * 8).toNat = (messages, h2) from e2] at l2
  obtain ⟨n2, f2, g2⟩ := Alloc.Heap.grants_request e2
  rw [f1, n1, f0, n0] at g2
  cases messages with
  | none =>
    have hno : h.fails (h.next + 1 + 1) = true := by simpa using g2
    refine ⟨by simp [Alloc.Heap.Grants, hno], (fun q hq => by cases hq), fun _ => ledger_unwound ?_⟩
    rwa [Option.toList_none, List.append_nil] at l2
  | some messages =>
  have hmessages : h.fails (h.next + 1 + 1) = false := by simpa using g2
  dsimp only
  have l3 := l2.trans (Alloc.ledger_request h2 Kind.plain (DEFAULT_UNACKED_CAPACITY * 32))
  cases e3 : malloc h2 (DEFAULT_UNACKED_CAPACITY * 32) with
  | mk unacked h3 =>
  rw [show h2.request Kind.plain (DEFAULT_UNACKED_CAPACITY * 32) = (unacked, h3) from e3] at l3
  obtain ⟨-, -, g3⟩ := Alloc.Heap.grants_request e3
  rw [f2, n2, f1, n1, f0, n0] at g3
  cases unacked with
  | none =>
    have hno : h.fails (h.next + 1 + 1 + 1) = true := by simpa using g3
    refine ⟨by simp [Alloc.Heap.Grants, hno], (fun q hq => by cases hq), fun _ => ledger_unwound ?_⟩
    rw [Option.toList_none, List.append_nil] at l3
    exact Alloc.Ledger.frees (l3.perm List.perm_append_comm)
  | some unacked =>
  have hunacked : h.fails (h.next + 1 + 1 + 1) = false := by simpa using g3
  dsimp only
  by_cases hsync : (!new.sync.mutex || !new.sync.notEmpty || !new.sync.notFull) = true
  · rw [if_pos hsync]
    refine ⟨?_, (fun q hq => by cases hq), fun _ => ledger_unwound ?_⟩
    · refine ⟨(fun hs => by cases hs), ?_⟩
      rintro ⟨⟨-, hmutex, hempty, hfull⟩, -⟩
      rw [hmutex, hempty, hfull] at hsync
      cases hsync
    · have hunwound := Alloc.Ledger.frees (l3.perm List.perm_append_comm)
      exact Alloc.Ledger.frees (hunwound.perm List.perm_append_comm)
  · rw [if_neg hsync]
    refine ⟨?_, ?_, fun hq => by cases hq⟩
    · simp at hsync
      simp [hcap, hsync, Alloc.Heap.Grants, hyes, hmessages, hunacked]
    · intro q hq
      cases hq
      rw [List.cons.injEq, c1]
      simp [Alloc.Heap.Grants]

theorem queue_all_or_nothing (n : Node) (name : Option CString) (new : NewQueue) :
    AllOrNothing n (.queue name new) ↔ CopiesGranted n (.queue name new) := by
  cases name with
  | none =>
    exact all_or_nothing_unchanged rfl trivial (fun hattempts => hattempts.1 rfl) fun kept hsome => by cases hsome
  | some name =>
    obtain ⟨hsome, hname, hnone⟩ := queue_grants name new n.server.heap
    refine all_or_nothing_of rfl trivial ?_ ?_ ?_
    · intro hno
      exact ⟨_, rfl, hnone (Option.map_eq_none_iff.mp hno)⟩
    · intro hattempts hchecked
      obtain ⟨q, hq⟩ := Option.isSome_iff_exists.mp (hsome.mpr ⟨hattempts.2, hchecked⟩)
      exact ⟨_, by rw [hq]; rfl, hname q hq⟩
    · intro hgets kept hkept
      obtain ⟨q, hq, -⟩ := Option.map_eq_some_iff.mp hkept
      obtain ⟨husable, hchecked⟩ := hsome.mp (by rw [hq]; rfl)
      exact absurd ⟨⟨Option.some_ne_none _, husable⟩, hchecked⟩ hgets

theorem strcmpEq_true {a : Option CString} {b : CString} (h : strcmpEq a (some b) = some true) : a = some b := by
  cases a with
  | none => cases h
  | some a => rw [of_decide_eq_true (Option.some.inj h)]

theorem findQueue_name {queues : Nat → Queue Message} {name : CString} {qs : List Nat} {q : Nat}
    (h : findQueue queues name qs = some (some q)) : (queues q).name = some name := by
  induction qs with
  | nil => cases h
  | cons q' qs ih =>
    unfold findQueue at h
    split at h
    · cases h
    · rename_i heq
      cases h
      exact strcmpEq_true heq
    · exact ih h

theorem brokerQueue_all_or_nothing (n : Node) (name : Option CString) (new : NewQueue) :
    AllOrNothing n (.brokerQueue name new) ↔ CopiesGranted n (.brokerQueue name new) := by
  cases name with
  | none =>
    exact all_or_nothing_unchanged rfl trivial (fun hattempts => hattempts) fun kept hsome => by cases hsome
  | some name =>
    cases hfind : findQueue n.server.queues name n.queueTable with
    | none =>
      refine all_or_nothing_lost ?_ fun hreturns => hreturns hfind
      simp only [Creation.run, brokerCreateQueue, hfind, Option.map_none]
    | some found =>
    have hreturns : (Creation.brokerQueue (some name) new).Returns n := by
      show findQueue n.server.queues name n.queueTable ≠ none
      rw [hfind]
      exact Option.some_ne_none _
    cases found with
    | some q =>
      have hrun : (Creation.brokerQueue (some name) new).run n = some ⟨n, some [(n.server.queues q).name]⟩ := by
        simp only [Creation.run, brokerCreateQueue, hfind, Option.map_some]
      refine all_or_nothing_unchanged hrun hreturns ?_ ?_
      · intro hattempts
        have hnot := hattempts.1
        rw [hfind] at hnot
        cases hnot
      · intro kept hkept
        cases hkept
        rw [findQueue_name hfind]
        rfl
    | none =>
    by_cases hroom : n.queueTable.length < MAX_QUEUES
    · obtain ⟨hsome, hname, hnone⟩ := queue_grants name new n.server.heap
      cases e : queueCreate (some name) new.capacity new.garbage new.garbageInfo new.sync n.server.heap with
      | mk queue heap =>
      rw [e] at hsome hname hnone
      cases queue with
      | none =>
        have hrun : (Creation.brokerQueue (some name) new).run n = some ⟨n.withHeap heap, none⟩ := by
          simp only [Creation.run, brokerCreateQueue, hfind, dif_pos hroom, e, Option.map_some, Option.map_none]
          rfl
        refine all_or_nothing_refused hrun hreturns (hnone rfl) ?_
        rintro ⟨hattempts, hchecked⟩
        cases hsome.mpr ⟨hattempts.2.2, hchecked⟩
      | some queue =>
        have hrun : (Creation.brokerQueue (some name) new).run n =
            some ⟨n.addQueue n.server.heap.next queue heap hroom, some [queue.name]⟩ := by
          simp only [Creation.run, brokerCreateQueue, hfind, dif_pos hroom, e, Option.map_some]
          simp only [Node.addQueue, Function.update_self]
        refine all_or_nothing_of hrun hreturns (fun hno => by cases hno) (fun _ _ => ⟨_, rfl, hname queue rfl⟩) ?_
        intro hgets
        obtain ⟨husable, hchecked⟩ := hsome.mp rfl
        exact absurd ⟨⟨hfind, hroom, husable⟩, hchecked⟩ hgets
    · have hrun : (Creation.brokerQueue (some name) new).run n = some ⟨n, none⟩ := by
        simp only [Creation.run, brokerCreateQueue, hfind, dif_neg hroom, Option.map_some, Option.map_none]
      exact all_or_nothing_unchanged hrun hreturns (fun hattempts => hroom hattempts.2.1) fun kept hkept => by cases hkept

/-! ## Exchanges and bindings -/

theorem findExchange_name {exchanges : Nat → Exchange} {name : CString} {es : List Nat} {e : Nat}
    (h : findExchange exchanges name es = some (some e)) : (exchanges e).name = some name := by
  induction es with
  | nil => cases h
  | cons e' es ih =>
    unfold findExchange at h
    split at h
    · cases h
    · rename_i heq
      cases h
      exact strcmpEq_true heq
    · exact ih h

theorem brokerExchange_all_or_nothing (n : Node) (name : Option CString) (type : ExchangeType) :
    AllOrNothing n (.brokerExchange name type) ↔ CopiesGranted n (.brokerExchange name type) := by
  cases name with
  | none =>
    exact all_or_nothing_unchanged rfl trivial (fun hattempts => hattempts) fun kept hsome => by cases hsome
  | some name =>
    cases hfind : findExchange n.server.exchanges name n.server.broker.exchanges with
    | none =>
      refine all_or_nothing_lost ?_ fun hreturns => hreturns hfind
      simp only [Creation.run, brokerCreateExchange, hfind, Option.map_none]
    | some found =>
    have hreturns : (Creation.brokerExchange (some name) type).Returns n := by
      show findExchange n.server.exchanges name n.server.broker.exchanges ≠ none
      rw [hfind]
      exact Option.some_ne_none _
    cases found with
    | some e =>
      have hrun : (Creation.brokerExchange (some name) type).run n = some ⟨n, some [(n.server.exchanges e).name]⟩ := by
        simp only [Creation.run, brokerCreateExchange, hfind, Option.map_some]
      refine all_or_nothing_unchanged hrun hreturns ?_ ?_
      · intro hattempts
        have hnot := hattempts.1
        rw [hfind] at hnot
        cases hnot
      · intro kept hkept
        cases hkept
        rw [findExchange_name hfind]
        rfl
    | none =>
    by_cases hroom : n.server.broker.exchanges.length < MAX_EXCHANGES
    · have hl := Alloc.ledger_request n.server.heap Kind.plain 16
      cases e0 : malloc n.server.heap 16 with
      | mk exchange h0 =>
      rw [show n.server.heap.request Kind.plain 16 = (exchange, h0) from e0] at hl
      obtain ⟨n0, f0, g0⟩ := Alloc.Heap.grants_request e0
      cases exchange with
      | none =>
        have hrun : (Creation.brokerExchange (some name) type).run n = some ⟨n.withHeap h0, none⟩ := by
          simp only [Creation.run, brokerCreateExchange, hfind, dif_pos hroom, e0, Option.map_some, Option.map_none]
          rfl
        refine all_or_nothing_refused hrun hreturns hl ?_
        rintro ⟨-, hchecked⟩
        cases g0.mpr (hchecked 0 (List.mem_singleton_self 0))
      | some exchange =>
        cases e1 : strdup h0 name with
        | mk dup h1 =>
        have c1 := copied_iff e1
        rw [f0, n0] at c1
        have hrun : (Creation.brokerExchange (some name) type).run n =
            some ⟨n.addExchange exchange.request ⟨dup.map fun _ => name, type⟩ h1 hroom, some [dup.map fun _ => name]⟩ := by
          simp only [Creation.run, brokerCreateExchange, hfind, dif_pos hroom, e0, e1, Option.map_some]
          simp only [Node.addExchange, Function.update_self]
        have hcopied : [dup.map fun _ => name] = (Creation.brokerExchange (some name) type).given ↔
            n.server.heap.Grants (Creation.brokerExchange (some name) type).copies := by
          simp only [Creation.given, Creation.copies, List.cons.injEq, c1, and_true, Alloc.Heap.Grants, List.mem_singleton, forall_eq]
        refine all_or_nothing_of hrun hreturns (fun hno => by cases hno) (fun _ _ => ⟨_, rfl, hcopied⟩) ?_
        intro hgets
        refine absurd ⟨⟨hfind, hroom⟩, ?_⟩ hgets
        intro k hk
        rw [List.mem_singleton.mp hk]
        exact g0.mp rfl
    · have hrun : (Creation.brokerExchange (some name) type).run n = some ⟨n, none⟩ := by
        simp only [Creation.run, brokerCreateExchange, hfind, dif_neg hroom, Option.map_some, Option.map_none]
      exact all_or_nothing_unchanged hrun hreturns (fun hattempts => hroom hattempts.2) fun kept hkept => by cases hkept

theorem dupKey_iff (routingKey : Option CString) (h : Heap) :
    (dupKey routingKey h).1 = routingKey ↔ (routingKey ≠ none → h.fails h.next = false) := by
  cases routingKey with
  | none => simp [dupKey]
  | some key =>
    cases e : strdup h key with
    | mk dup h' =>
    simp only [dupKey, e, copied_iff e, ne_eq, reduceCtorEq, not_false_eq_true, forall_const]

theorem binding_all_or_nothing (n : Node) (exchange queue : Option Nat) (routingKey : Option CString) :
    AllOrNothing n (.binding exchange queue routingKey) ↔ CopiesGranted n (.binding exchange queue routingKey) := by
  by_cases hattempts : (Creation.binding exchange queue routingKey).Attempts n
  · obtain ⟨hexchange, hqueue, hroom⟩ := hattempts
    obtain ⟨exchange, rfl⟩ := Option.ne_none_iff_exists'.mp hexchange
    obtain ⟨queue, rfl⟩ := Option.ne_none_iff_exists'.mp hqueue
    have hl := Alloc.ledger_request n.server.heap Kind.plain 24
    cases e0 : malloc n.server.heap 24 with
    | mk binding h0 =>
    rw [show n.server.heap.request Kind.plain 24 = (binding, h0) from e0] at hl
    obtain ⟨n0, f0, g0⟩ := Alloc.Heap.grants_request e0
    cases binding with
    | none =>
      have hrun : (Creation.binding (some exchange) (some queue) routingKey).run n = some ⟨n.withHeap h0, none⟩ := by
        simp only [Creation.run, brokerBindQueue, dif_pos hroom, e0, if_true]
        rfl
      refine all_or_nothing_refused hrun trivial hl ?_
      rintro ⟨-, hchecked⟩
      cases g0.mpr (hchecked 0 (List.mem_singleton_self 0))
    | some binding =>
      have hrun : (Creation.binding (some exchange) (some queue) routingKey).run n =
          some ⟨n.addBinding ⟨exchange, queue, (dupKey routingKey h0).1⟩ (dupKey routingKey h0).2 hroom,
            some [(dupKey routingKey h0).1]⟩ := by
        simp only [Creation.run, brokerBindQueue, dif_pos hroom, e0, one_ne_zero, if_false]
        simp only [Node.addBinding, List.getLast?_append, List.getLast?_singleton, Option.some_or, Option.bind_some]
      have hcopied : [(dupKey routingKey h0).1] = (Creation.binding (some exchange) (some queue) routingKey).given ↔
          n.server.heap.Grants (Creation.binding (some exchange) (some queue) routingKey).copies := by
        simp only [Creation.given, Creation.copies, List.cons.injEq, dupKey_iff, f0, n0, and_true, Alloc.Heap.Grants]
        by_cases hkey : routingKey = none
        · simp [hkey]
        · simp [hkey]
      refine all_or_nothing_of hrun trivial (fun hno => by cases hno) (fun _ _ => ⟨_, rfl, hcopied⟩) ?_
      intro hgets
      refine absurd ⟨⟨hexchange, hqueue, hroom⟩, ?_⟩ hgets
      intro k hk
      rw [List.mem_singleton.mp hk]
      exact g0.mp rfl
  · have hrun : (Creation.binding exchange queue routingKey).run n = some ⟨n, none⟩ := by
      simp only [Creation.run, brokerBindQueue]
      split
      · rename_i exchange queue
        rw [dif_neg fun hroom => hattempts ⟨Option.some_ne_none _, Option.some_ne_none _, hroom⟩]
        rfl
      · rfl
    exact all_or_nothing_unchanged hrun trivial hattempts fun kept hkept => by cases hkept

/-- In every state and for every pattern of refused requests. -/
theorem all_or_nothing_iff (n : Node) (c : Creation) : AllOrNothing n c ↔ CopiesGranted n c := by
  cases c with
  | message exchange routingKey body bodySize => exact message_all_or_nothing n exchange routingKey body bodySize
  | clone m => exact clone_all_or_nothing n m
  | queue name new => exact queue_all_or_nothing n name new
  | brokerQueue name new => exact brokerQueue_all_or_nothing n name new
  | brokerExchange name type => exact brokerExchange_all_or_nothing n name type
  | binding exchange queue routingKey => exact binding_all_or_nothing n exchange queue routingKey

/-- A broker whose second request for memory from now on is refused. -/
def refusingTheSecond : Node := aNode.withHeap { aNode.server.heap with fails := fun n => n == 101 }

/-- The `Exchange` is granted, its name is not. -/
theorem an_exchange_is_created_without_a_name :
    ¬ AllOrNothing refusingTheSecond (.brokerExchange (some twoBytes.exchange) .direct) := by
  intro h
  obtain ⟨o, hrun, hall, -⟩ := h
  have hstored : ((Creation.brokerExchange (some twoBytes.exchange) .direct).run refusingTheSecond).map (·.stored) =
      some (some [none]) := by decide +kernel
  rw [hrun, Option.map_some, Option.some.injEq] at hstored
  have hnull := hall _ hstored
  cases hnull

end RabbitMQ.Core
