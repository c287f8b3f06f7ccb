/-
  RabbitMQ.Core.Network — the network thread: accepting clients into slots, starting and
  stopping, and the consumers table that refers to clients by slot.

  The thread takes one step at a time: it looks at `running`, accepts a client into a slot,
  creates its handler. On its way out it goes through the slots, and for each one in use
  clears `running`, joins the handler and closes. The handlers of the slots it has not come
  to go on meanwhile. A handler thread also ends when its client is gone; the slot stays as it
  is. A start resets the slots. Nothing ever takes an entry out of the consumers table. The
  record `asked` has the registrations sent on the connection now in each slot.

  Proved: messages of a queue are sent only to clients whose connection registered for it
  exactly when no client is accepted into a slot that the table has down for a queue, and no
  registration is cut to the name of a queue (`no_stranger_iff`,
  `a_second_cycle_serves_a_stranger`).
-/

import RabbitMQ.Core.Consumers
import RabbitMQ.Core.Registry

namespace RabbitMQ.Core

open Lib

/-! ## The network thread -/

inductive AcceptorPlace where
  | looking
  | accepting
  /-- The client is in slot `i`; its handler thread is created next. -/
  | creating (i : Nat)
  | closing (i : Nat)
  | joining (i : Nat)
  | exited
  deriving DecidableEq, Repr

structure Network where
  server : Server
  /-- `broker->running` -/
  running : Bool
  /-- The network thread. -/
  place : AcceptorPlace
  /-- The handler threads that have not returned. -/
  handlers : Nat → Bool
  clientFds : Nat → Int
  clientCount : Nat
  asked : List (Nat × CString)

def noName : CString := ⟨[], List.not_mem_nil⟩

/-- The start of the thread: every slot free. -/
def initSlots (n : Network) : Network :=
  { n with
    server := { n.server with
      clients := fun i =>
        if i < MAX_CONNECTIONS then { n.server.clients i with fd := -1, running := false } else n.server.clients i }
    clientFds := fun i => if i < MAX_CONNECTIONS then -1 else n.clientFds i
    clientCount := 0 }

def freeSlot (clients : Nat → ClientConnection) : Option Nat :=
  (List.range MAX_CONNECTIONS).find? fun i => (clients i).fd = -1

theorem freeSlot_some {clients : Nat → ClientConnection} {i : Nat} (h : freeSlot clients = some i) :
    i < MAX_CONNECTIONS ∧ (clients i).fd = -1 :=
  ⟨List.mem_range.mp (List.mem_of_find?_eq_some h), by simpa using List.find?_some h⟩

/-- What the loop does with the result of `accept`. -/
def takeClient (clientFd : Int) (n : Network) : Network :=
  if clientFd < 0 then { n with place := .looking }
  else if n.clientCount < MAX_CONNECTIONS then
    match freeSlot n.server.clients with
    | none => { n with place := .looking }
    | some i =>
      let conn := { n.server.clients i with fd := clientFd, isConsumer := false, running := true, queueName := noName }
      { n with
        server := { n.server with clients := Function.update n.server.clients i conn }
        asked := n.asked.filter (·.1 ≠ i)
        place := .creating i }
  else { n with place := .looking }

/-- `thread`: the handler thread could be created. -/
def createHandler (thread : Bool) (n : Network) : Network :=
  match n.place with
  | .creating i =>
    let conn := n.server.clients i
    if thread then
      { n with
        handlers := Function.update n.handlers i true
        clientFds := Function.update n.clientFds i conn.fd
        clientCount := n.clientCount + 1
        place := .looking }
    else
      { n with
        server := { n.server with clients := Function.update n.server.clients i { conn with fd := -1, running := false } }
        place := .looking }
  | _ => n

/-- A client accepted, from `accept` to the next look at `running`. -/
def acceptClient (clientFd : Int) (thread : Bool) (n : Network) : Network := createHandler thread (takeClient clientFd n)

/-- The next step on the way out. A join waits until the handler has returned. -/
def closeStep (n : Network) : Network :=
  match n.place with
  | .closing i =>
    if i < MAX_CONNECTIONS then
      let conn := n.server.clients i
      if conn.fd = -1 then { n with place := .closing (i + 1) }
      else
        { n with
          server := { n.server with clients := Function.update n.server.clients i { conn with running := false } }
          place := .joining i }
    else { n with clientCount := 0, place := .exited }
  | .joining i =>
    if n.handlers i then n
    else
      { n with
        server := { n.server with clients := Function.update n.server.clients i { n.server.clients i with fd := -1 } }
        clientFds := Function.update n.clientFds i (-1)
        place := .closing (i + 1) }
  | _ => n

/-! ## Start and stop -/

/-- `network`, `eventLoop`: whether `pthread_create` succeeds; `listens`: the thread gets as
    far as listening. A start whose event loop fails when the thread has looked at `running`
    already is a start and then a stop. -/
def brokerStart (network listens eventLoop : Bool) (n : Network) : Network :=
  if n.running then n
  else if !network then n
  else
    let n := if listens then { initSlots n with place := .looking } else n
    { n with running := eventLoop }

def brokerStop (n : Network) : Network := { n with running := false }

/-! ## Events -/

inductive NetworkEvent where
  | start (network listens eventLoop : Bool)
  | stop
  | look
  | accept (clientFd : Int)
  | create (thread : Bool)
  | close
  /-- Client `i` is gone, and its handler thread returns. -/
  | disconnect (i : Nat)
  /-- The handler thread of client `i` has received a message. -/
  | receive (i : Nat) (m : Message)

/-- The queue a registration asks for, in full. -/
def askedName (m : Fields) : CString := CString.ofBuffer ((m.body.getD []).take m.bodySize.toNat)

/-- Then the handler looks at the `running` of its slot. -/
def receiveStep (i : Nat) (m : Message) (n : Network) : Network :=
  match handleMessage i m n.server with
  | none => n
  | some server =>
    { n with
      server
      handlers := Function.update n.handlers i (server.clients i).running
      asked := if isRegistration m.toFields = some true then n.asked ++ [(i, askedName m.toFields)] else n.asked }

/-- A start waits for the network thread of the cycle before; a handler that has returned
    receives nothing. -/
def networkStep (n : Network) : NetworkEvent → Network
  | .start network listens eventLoop => if n.place = .exited then brokerStart network listens eventLoop n else n
  | .stop => brokerStop n
  | .look => if n.place = .looking then { n with place := if n.running then .accepting else .closing 0 } else n
  | .accept clientFd => if n.place = .accepting then takeClient clientFd n else n
  | .create thread => createHandler thread n
  | .close => closeStep n
  | .disconnect i => { n with handlers := Function.update n.handlers i false }
  | .receive i m => if n.handlers i then receiveStep i m n else n

/-- The thread is to look at `running` next. -/
theorem acceptClient_looks (clientFd : Int) (thread : Bool) (n : Network) :
    (acceptClient clientFd thread n).place = .looking ∧ (acceptClient clientFd thread n).running = n.running := by
  unfold acceptClient takeClient
  repeat' split
  all_goals (unfold createHandler; dsimp only)
  all_goals first
    | exact ⟨rfl, rfl⟩
    | (split <;> exact ⟨rfl, rfl⟩)

/-- One turn of the loop. -/
theorem run_turn {n : Network} (h : n.place = .accepting) (clientFd : Int) (thread : Bool) :
    Run.run networkStep n [.accept clientFd, .create thread, .look] =
      { acceptClient clientFd thread n with place := if n.running then .accepting else .closing 0 } := by
  obtain ⟨hlooks, hrunning⟩ := acceptClient_looks clientFd thread n
  have haccepts : networkStep (networkStep n (.accept clientFd)) (.create thread) = acceptClient clientFd thread n := by
    simp only [networkStep, if_pos h, acceptClient]
  show networkStep (networkStep (networkStep n (.accept clientFd)) (.create thread)) .look = _
  rw [haccepts]
  simp only [networkStep, if_pos hlooks, hrunning]

/-- Nobody has registered. -/
structure Booted (n : Network) : Prop where
  slots : ∀ q, SlotsOk (n.server.queues q)
  consumers : n.server.consumers = []

/-! ## What the steps keep -/

structure Wired (n : Network) : Prop where
  slots : ∀ q, SlotsOk (n.server.queues q)
  indices : ∀ c ∈ n.server.consumers, c.clientIndex < MAX_CONNECTIONS

theorem copyName_askedName (m : Fields) : copyName (registeredName m) = copyName (askedName m) := by
  apply CString.ext
  rw [copyName_bytes, copyName_bytes]
  simp only [registeredName, askedName, CString.ofBuffer]
  rw [List.take_takeWhile, List.take_takeWhile, List.take_take, List.take_take, Nat.min_comm 63 (min _ _),
    Nat.min_assoc, Nat.min_self, Nat.min_comm]

/-- A registration goes to the consumers table; any other message leaves the tables and the
    queues' names as they are. -/
theorem handle_tables {i : Nat} {m : Message} {s s' : Server} (hs : ∀ q, SlotsOk (s.queues q))
    (h : handleMessage i m s = some s') :
    (∀ q, SlotsOk (s'.queues q)) ∧ (∀ q, (s'.queues q).name = (s.queues q).name) ∧
      if isRegistration m.toFields = some true then
        s'.consumers = (registerConsumer i (registeredName m.toFields) s).2.consumers ∧
          s'.clients = (registerConsumer i (registeredName m.toFields) s).2.clients
      else s'.consumers = s.consumers ∧ s'.clients = s.clients := by
  unfold handleMessage at h
  cases hreg : isRegistration m.toFields with
  | none => rw [hreg] at h; cases h
  | some reg =>
  rw [hreg] at h
  cases reg with
  | true =>
    cases h
    have hq : (registerConsumer i (registeredName m.toFields) s).2.queues = s.queues := by
      unfold registerConsumer
      repeat' split
      all_goals rfl
    rw [if_pos rfl]
    refine ⟨?_, ?_, rfl, rfl⟩
    · show ∀ q, SlotsOk ((registerConsumer i (registeredName m.toFields) s).2.queues q)
      rw [hq]; exact hs
    · show ∀ q, ((registerConsumer i (registeredName m.toFields) s).2.queues q).name = _
      rw [hq]; exact fun _ => rfl
  | false =>
    rw [if_neg (by simp)]
    simp only at h
    split at h
    · cases h; exact ⟨hs, fun _ => rfl, rfl, rfl⟩
    split at h
    · cases h
    · cases h; exact ⟨hs, fun _ => rfl, rfl, rfl⟩
    · obtain ⟨⟨val, s1⟩, hpub, rfl⟩ := Option.map_eq_some_iff.mp h
      rw [publish_copies] at hpub
      obtain ⟨⟨s2, cs⟩, hrun, he⟩ := Option.map_eq_some_iff.mp hpub
      cases he
      obtain ⟨happ, -⟩ := publish_appends hs hrun
      refine ⟨happ.slots, fun q => ?_, ?_, ?_⟩
      · rw [happ.queues q]
      · rw [happ.tables]
      · rw [happ.tables]

/-- Any other step changes clients only. -/
theorem step_tables (n : Network) {e : NetworkEvent} (h : ∀ i m, e ≠ .receive i m) :
    (networkStep n e).server.queues = n.server.queues ∧ (networkStep n e).server.consumers = n.server.consumers := by
  cases e with
  | start network listens eventLoop =>
    simp only [networkStep, brokerStart]
    repeat' split
    all_goals exact ⟨rfl, rfl⟩
  | stop => exact ⟨rfl, rfl⟩
  | look =>
    simp only [networkStep]
    split <;> exact ⟨rfl, rfl⟩
  | accept clientFd =>
    simp only [networkStep, takeClient]
    repeat' split
    all_goals exact ⟨rfl, rfl⟩
  | create thread =>
    simp only [networkStep, createHandler]
    repeat' split
    all_goals exact ⟨rfl, rfl⟩
  | close =>
    simp only [networkStep, closeStep]
    repeat' split
    all_goals exact ⟨rfl, rfl⟩
  | disconnect i => exact ⟨rfl, rfl⟩
  | receive i m => exact absurd rfl (h i m)

theorem wired_step (n : Network) (e : NetworkEvent) (h : Wired n) : Wired (networkStep n e) := by
  by_cases he : ∃ i m, e = .receive i m
  · obtain ⟨i, m, rfl⟩ := he
    simp only [networkStep, receiveStep]
    split
    · split
      · exact h
      · rename_i s' hm
        obtain ⟨hs, -, htables⟩ := handle_tables h.slots hm
        refine ⟨hs, ?_⟩
        show ∀ c ∈ s'.consumers, c.clientIndex < MAX_CONNECTIONS
        split at htables
        · rw [htables.1]
          exact registerConsumer_indices h.indices
        · rw [htables.1]
          exact h.indices
    · exact h
  · obtain ⟨hqueues, hconsumers⟩ := step_tables n fun i m hem => he ⟨i, m, hem⟩
    exact ⟨by rw [hqueues]; exact h.slots, by rw [hconsumers]; exact h.indices⟩

/-! ## Strangers -/

/-- Whoever a queue's messages are sent to has asked for them on its connection. -/
def NoStranger (n : Network) : Prop :=
  ∀ q name i, (n.server.queues q).name = some name → i ∈ targets n.server name → (i, name) ∈ n.asked

/-- A client accepted gets a slot that no entry of the table naming a queue refers to; and a
    name that a connected client registers under is a queue's only if it is the name in full
    or the client asked for that queue before. -/
def keepsOut (n : Network) : NetworkEvent → Prop
  | .accept clientFd =>
    n.place = .accepting → 0 ≤ clientFd → n.clientCount < MAX_CONNECTIONS →
      ∀ i, freeSlot n.server.clients = some i → ∀ c ∈ n.server.consumers, c.clientIndex = i →
        ∀ q, (n.server.queues q).name ≠ some c.queueName
  | .receive i m =>
    n.handlers i = true → isRegistration m.toFields = some true → i < MAX_CONNECTIONS →
      n.server.consumers.length < MAX_CONNECTIONS → Live (n.server.clients i) →
      ∀ q, (n.server.queues q).name = some (copyName (askedName m.toFields)) →
        askedName m.toFields = copyName (askedName m.toFields) ∨ (i, copyName (askedName m.toFields)) ∈ n.asked
  | _ => True

/-- No client has become live. -/
theorem fewer_strangers {n : Network} {e : NetworkEvent} (h : ∀ i m, e ≠ .receive i m) (hasked : (networkStep n e).asked = n.asked)
    (hlive : ∀ i, i < MAX_CONNECTIONS → Live ((networkStep n e).server.clients i) → Live (n.server.clients i)) (hw : Wired n)
    (hn : NoStranger n) : NoStranger (networkStep n e) := by
  obtain ⟨hqueues, hconsumers⟩ := step_tables n h
  intro q name i hname hi
  obtain ⟨hmem, hl⟩ := mem_targets.mp hi
  rw [hconsumers] at hmem
  rw [hqueues] at hname
  rw [hasked]
  exact hn q name i hname (mem_targets.mpr ⟨hmem, hlive i (hw.indices _ hmem) hl⟩)

theorem initSlots_dead (n : Network) (i : Nat) (hi : i < MAX_CONNECTIONS) : ¬ Live ((initSlots n).server.clients i) := by
  intro hlive
  simp only [initSlots, if_pos hi] at hlive
  exact hlive.1 rfl

theorem start_strangers {network listens eventLoop : Bool} {n : Network} (h : Wired n) (hn : NoStranger n) :
    NoStranger (networkStep n (.start network listens eventLoop)) := by
  refine fewer_strangers (fun _ _ => NetworkEvent.noConfusion) ?_ (fun i hi hl => ?_) h hn
  · simp only [networkStep, brokerStart]
    repeat' split
    all_goals rfl
  · simp only [networkStep, brokerStart] at hl
    repeat' split at hl
    all_goals first
      | exact hl
      | exact absurd hl (initSlots_dead n i hi)

theorem create_strangers {thread : Bool} {n : Network} (h : Wired n) (hn : NoStranger n) :
    NoStranger (networkStep n (.create thread)) := by
  refine fewer_strangers (fun _ _ => NetworkEvent.noConfusion) ?_ (fun i _ hl => ?_) h hn
  · simp only [networkStep, createHandler]
    repeat' split
    all_goals rfl
  · simp only [networkStep, createHandler] at hl
    split at hl
    · rename_i j _
      split at hl
      · exact hl
      · by_cases hij : i = j
        · subst hij
          simp only [Function.update_self] at hl
          exact absurd rfl hl.1
        · simp only [Function.update_of_ne hij] at hl
          exact hl
    · exact hl

/-- A slot is closed in two steps, and from the first on its client is sent nothing. -/
theorem close_strangers {n : Network} (h : Wired n) (hn : NoStranger n) : NoStranger (networkStep n .close) := by
  refine fewer_strangers (fun _ _ => NetworkEvent.noConfusion) ?_ (fun i _ hl => ?_) h hn
  · simp only [networkStep, closeStep]
    repeat' split
    all_goals rfl
  · have hother : ∀ {j : Nat} {conn : ClientConnection}, ¬ Live conn →
        Live (Function.update n.server.clients j conn i) → Live (n.server.clients i) := by
      intro j conn hdead hl
      by_cases hij : i = j
      · subst hij
        rw [Function.update_self] at hl
        exact absurd hl hdead
      · rwa [Function.update_of_ne hij] at hl
    simp only [networkStep, closeStep] at hl
    split at hl
    · split at hl
      · split at hl
        · exact hl
        · exact hother (fun hd => Bool.noConfusion hd.2) hl
      · exact hl
    · split at hl
      · exact hl
      · exact hother (fun hd => hd.1 rfl) hl
    · exact hl

/-- A client accepted into slot `i` is sent what the table has down for the slot, before its
    handler is created already. -/
theorem accepted_strangers {clientFd : Int} {n : Network} {i : Nat} (hfd : 0 ≤ clientFd)
    (hcount : n.clientCount < MAX_CONNECTIONS) (hfree : freeSlot n.server.clients = some i) (hn : NoStranger n) :
    (∀ c ∈ n.server.consumers, c.clientIndex = i → ∀ q, (n.server.queues q).name ≠ some c.queueName) ↔
      NoStranger (takeClient clientFd n) := by
  have hneg : ¬ clientFd < 0 := by omega
  simp only [takeClient, if_neg hneg, if_pos hcount, hfree]
  have hlive : Live { n.server.clients i with fd := clientFd, isConsumer := false, running := true, queueName := noName } :=
    ⟨by show clientFd ≠ -1; omega, rfl⟩
  constructor
  · intro hok q name j hname hj
    obtain ⟨hmem, hl⟩ := mem_targets.mp hj
    have hne : j ≠ i := by
      intro he
      exact hok ⟨j, name⟩ hmem he q hname
    have hl' : Live (n.server.clients j) := by
      simp only [Function.update_of_ne hne] at hl
      exact hl
    have hasked := hn q name j hname (mem_targets.mpr ⟨hmem, hl'⟩)
    exact List.mem_filter.mpr ⟨hasked, decide_eq_true hne⟩
  · intro hnext c hc he q hname
    subst he
    have hasked := hnext q c.queueName c.clientIndex hname (mem_targets.mpr ⟨hc, by
      simp only [Function.update_self]
      exact hlive⟩)
    have hne := (List.mem_filter.mp hasked).2
    simp at hne

theorem accept_strangers {clientFd : Int} {n : Network} (hn : NoStranger n) :
    keepsOut n (.accept clientFd) ↔ NoStranger (networkStep n (.accept clientFd)) := by
  simp only [keepsOut, networkStep]
  by_cases hplace : n.place = .accepting
  · rw [if_pos hplace]
    by_cases hfd : 0 ≤ clientFd
    · by_cases hcount : n.clientCount < MAX_CONNECTIONS
      · cases hfree : freeSlot n.server.clients with
        | none =>
          have hsame : takeClient clientFd n = { n with place := .looking } := by
            simp only [takeClient, if_neg (Int.not_lt.mpr hfd), if_pos hcount, hfree]
          rw [hsame]
          exact iff_of_true (fun _ _ _ i he => by cases he) hn
        | some i =>
          rw [← accepted_strangers hfd hcount hfree hn]
          constructor
          · exact fun hok => hok hplace hfd hcount i rfl
          · intro hok _ _ _ j he
            cases he
            exact hok
      · have hsame : takeClient clientFd n = { n with place := .looking } := by
          simp only [takeClient, if_neg (Int.not_lt.mpr hfd), if_neg hcount]
        rw [hsame]
        exact iff_of_true (fun _ _ hc => absurd hc hcount) hn
    · have hsame : takeClient clientFd n = { n with place := .looking } := by
        simp only [takeClient, if_pos (Int.not_le.mp hfd)]
      rw [hsame]
      exact iff_of_true (fun _ hf => absurd hf hfd) hn
  · rw [if_neg hplace]
    exact iff_of_true (fun hl => absurd hl hplace) hn

theorem receive_strangers {i : Nat} {m : Message} {n : Network} (h : Wired n) (hn : NoStranger n) :
    (n.handlers i = true → isRegistration m.toFields = some true → i < MAX_CONNECTIONS →
      n.server.consumers.length < MAX_CONNECTIONS → Live (n.server.clients i) →
      ∀ q, (n.server.queues q).name = some (copyName (askedName m.toFields)) →
        askedName m.toFields = copyName (askedName m.toFields) ∨ (i, copyName (askedName m.toFields)) ∈ n.asked) ↔
      NoStranger (networkStep n (.receive i m)) := by
  simp only [networkStep]
  by_cases hh : n.handlers i = true
  · rw [if_pos hh]
    unfold receiveStep
    cases hm : handleMessage i m n.server with
    | none =>
      have hnot : isRegistration m.toFields ≠ some true := by
        intro hreg
        simp only [handleMessage, hreg] at hm
        cases hm
      exact iff_of_true (fun _ hreg => absurd hreg hnot) hn
    | some s' =>
      obtain ⟨-, hnames, htables⟩ := handle_tables h.slots hm
      by_cases hreg : isRegistration m.toFields = some true
      · rw [if_pos hreg] at htables
        have htargets : ∀ name j, j ∈ targets s' name ↔ j ∈ targets n.server name ∨
            (i < MAX_CONNECTIONS ∧ n.server.consumers.length < MAX_CONNECTIONS ∧ j = i ∧
              name = copyName (askedName m.toFields) ∧ Live (n.server.clients i)) := by
          intro name j
          rw [targets_congr htables.1 htables.2, mem_targets_register, copyName_askedName]
        constructor
        · intro hok q name j hname hj
          simp only [hreg, if_true]
          rw [hnames] at hname
          rcases (htargets name j).mp hj with hj | ⟨hslot, hroom, rfl, rfl, hl⟩
          · exact List.mem_append_left _ (hn q name j hname hj)
          · rcases hok hh hreg hslot hroom hl q hname with he | hasked
            · exact List.mem_append_right _ (List.mem_singleton.mpr (by rw [← he]))
            · exact List.mem_append_left _ hasked
        · intro hnext _ _ hslot hroom hl q hname
          have hasked := hnext q (copyName (askedName m.toFields)) i (by show (s'.queues q).name = _; rw [hnames, hname])
            ((htargets _ i).mpr (Or.inr ⟨hslot, hroom, rfl, rfl, hl⟩))
          simp only [hreg, if_true] at hasked
          rcases List.mem_append.mp hasked with ha | ha
          · exact Or.inr ha
          · exact Or.inl (Prod.mk.inj (List.mem_singleton.mp ha)).2.symm
      · rw [if_neg hreg] at htables
        refine iff_of_true (fun _ hr => absurd hr hreg) ?_
        intro q name j hname hj
        simp only [if_neg hreg]
        rw [targets_congr htables.1 htables.2] at hj
        exact hn q name j (by rw [← hnames]; exact hname) hj
  · rw [if_neg hh]
    exact iff_of_true (fun hr => absurd hr hh) hn

theorem noStranger_step (n : Network) (e : NetworkEvent) (h : Wired n) (hn : NoStranger n) :
    keepsOut n e ↔ NoStranger (networkStep n e) := by
  cases e with
  | start network listens eventLoop => exact iff_of_true trivial (start_strangers h hn)
  | stop => exact iff_of_true trivial hn
  | look =>
    refine iff_of_true trivial ?_
    simp only [networkStep]
    split <;> exact hn
  | accept clientFd => exact accept_strangers hn
  | create thread => exact iff_of_true trivial (create_strangers h hn)
  | close => exact iff_of_true trivial (close_strangers h hn)
  | disconnect i => exact iff_of_true trivial hn
  | receive i m => exact receive_strangers h hn

/-- Over any number of cycles. -/
theorem no_stranger_iff {n : Network} (h0 : Booted n) (es : List NetworkEvent) :
    (∀ as, as <+: es → NoStranger (Run.run networkStep n as)) ↔ Run.Along networkStep keepsOut n es := by
  have hw : Wired n := by
    refine ⟨h0.slots, ?_⟩
    rw [h0.consumers]
    exact fun c hc => absurd hc List.not_mem_nil
  have hn : NoStranger n := by
    intro q name i _ hi
    rw [targets, h0.consumers] at hi
    cases hi
  exact Run.along_iff wired_step noStranger_step hw hn

/-- A broker with a queue "a", not started. -/
def aNetwork : Network where
  server := serverWith (fun _ => emptyQueue) [] (Nat.zero_le _)
  running := false
  place := .exited
  handlers _ := false
  clientFds _ := -1
  clientCount := 0
  asked := []

theorem aNetwork_booted : Booted aNetwork := ⟨fun _ => emptyQueue_ring.slots, rfl⟩

/-- Client 0 registers for the queue "a". -/
def aConsumer : NetworkEvent := .receive 0 (registrationOf 0 (by decide)).message

/-- A broker is started, and a client accepted into slot 0 registers for "a". -/
def firstCycle : List NetworkEvent := [.start true true true, .look, .accept 5, .create true, .look, aConsumer]

/-- After a stop the client leaves, `accept` returns, and the network thread goes through the
    slots. -/
def closingDown : List NetworkEvent :=
  [.stop, .disconnect 0, .accept (-1), .look] ++ List.replicate (MAX_CONNECTIONS + 2) .close

/-- A consumer registers in the first cycle; in the second another client gets its slot. -/
theorem a_second_cycle_serves_a_stranger : ¬ NoStranger (Run.run networkStep aNetwork
    (firstCycle ++ closingDown ++ [.start true true true, .look, .accept 7, .create true])) := by
  intro h
  have hasked := h 0 twoBytes.exchange 0 (by decide +kernel) (by decide +kernel)
  exact absurd hasked (by decide +kernel)

theorem no_stranger_in_one_cycle : NoStranger (Run.run networkStep aNetwork firstCycle) := by
  refine (no_stranger_iff aNetwork_booted firstCycle).mpr ⟨trivial, trivial, ?_, trivial, trivial, ?_, trivial⟩ _ List.prefix_rfl
  · intro _ _ _ i _ c hc
    cases hc
  · intro _ _ _ _ _ q _
    exact Or.inl (by decide +kernel)

end RabbitMQ.Core
