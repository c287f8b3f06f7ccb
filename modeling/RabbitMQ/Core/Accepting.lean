/-
  RabbitMQ.Core.Accepting — the network thread's accounts of the clients it accepts.

  A run of the thread is any sequence of results of `accept` and of `pthread_create`, with
  the handler threads' and `broker_stop`'s steps in between. Next to the slots it notes the
  descriptors accepted and those closed.

  At every step each descriptor accepted is in one slot or closed, once. Between two turns of
  the loop, and when the thread has returned, `client_count` is the number of slots in use,
  `client_fds` repeats the descriptors of the slots, and the slots in use are marked running
  (`accepts_are_tallied`). A thread that could not be created gives its slot back before
  anything is counted; no other thread touches `fd`. So the search for a slot finds one
  whenever it is made.
-/

import Mathlib.Data.List.Nodup
import RabbitMQ.Core.Network

namespace RabbitMQ.Core

open Lib

/-! ## The accounts -/

/-- What the thread passes to `close` when `accept` has returned. -/
def takeCloses (clientFd : Int) (n : Network) : List Int :=
  if 0 ≤ clientFd ∧ MAX_CONNECTIONS ≤ n.clientCount then [clientFd] else []

/-- And when `pthread_create` has. -/
def createCloses (thread : Bool) (n : Network) : List Int :=
  match n.place with
  | .creating i => if thread then [] else [(n.server.clients i).fd]
  | _ => []

/-- And on its way out, when a handler has been joined. -/
def joinCloses (n : Network) : List Int :=
  match n.place with
  | .joining i => if n.handlers i then [] else [(n.server.clients i).fd]
  | _ => []

/-- What a turn of the loop passes to `close`. -/
def acceptCloses (clientFd : Int) (thread : Bool) (n : Network) : List Int :=
  takeCloses clientFd n ++ createCloses thread (takeClient clientFd n)

/-- The slots in use. -/
def used (n : Network) : List Nat := (List.range MAX_CONNECTIONS).filter fun i => (n.server.clients i).fd ≠ -1

def stored (n : Network) : List Int := (used n).map fun i => (n.server.clients i).fd

structure Accepting where
  network : Network
  accepted : List Int
  closed : List Int

/-- The thread up to its first look at `running`. -/
def threadBegins (n : Network) : Accepting := ⟨{ initSlots n with place := .looking }, [], []⟩

def acceptingStep (s : Accepting) (e : NetworkEvent) : Accepting :=
  let network := networkStep s.network e
  match e with
  | .accept clientFd =>
    if s.network.place = .accepting then
      { network
        accepted := s.accepted ++ if clientFd < 0 then [] else [clientFd]
        closed := s.closed ++ takeCloses clientFd s.network }
    else s
  | .create thread => { s with network, closed := s.closed ++ createCloses thread s.network }
  | .close => { s with network, closed := s.closed ++ joinCloses s.network }
  | _ => { s with network }

/-- Each descriptor accepted is in one slot or closed, once. -/
def Placed (s : Accepting) : Prop := s.accepted.Perm (stored s.network ++ s.closed)

/-- Or at the end. -/
def BetweenTurns (n : Network) : Prop := n.place = .looking ∨ n.place = .accepting ∨ n.place = .exited

structure Tallied (s : Accepting) : Prop where
  count : s.network.clientCount = (used s.network).length
  fds : ∀ i, i < MAX_CONNECTIONS → s.network.clientFds i = (s.network.server.clients i).fd
  running : ∀ i ∈ used s.network, (s.network.server.clients i).running = true
  accepted : Placed s
  /-- The thread has ended. -/
  ended : s.network.place = .exited → used s.network = []

/-- A descriptor accepted next goes to one slot, whose handler is started, or is closed. -/
def Places (n : Network) (clientFd : Int) (thread : Bool) : Prop :=
  (acceptCloses clientFd thread n = [] ∧ ∃ i, i < MAX_CONNECTIONS ∧ (n.server.clients i).fd = -1 ∧
      ((acceptClient clientFd thread n).server.clients i).fd = clientFd ∧
      ((acceptClient clientFd thread n).server.clients i).running = true ∧
      (acceptClient clientFd thread n).handlers i = true ∧
      ∀ j, j ≠ i → (acceptClient clientFd thread n).server.clients j = n.server.clients j) ∨
    (acceptCloses clientFd thread n = [clientFd] ∧
      ∀ i, ((acceptClient clientFd thread n).server.clients i).fd = (n.server.clients i).fd)

/-! ## The other threads -/

/-- Every slot has the descriptor it had, and one in use is as it was in `running` too. -/
def SameSlots (s s' : Server) : Prop :=
  ∀ i, (s'.clients i).fd = (s.clients i).fd ∧
    ((s.clients i).fd ≠ -1 → (s'.clients i).running = (s.clients i).running)

theorem sameSlots_of_eq {s s' : Server} (h : s'.clients = s.clients) : SameSlots s s' := fun i => by
  rw [h]
  exact ⟨rfl, fun _ => rfl⟩

theorem forward_clients {queueName : Option CString} {m : Message} {s s' : Server}
    (h : forwardMessageToConsumers queueName m s = some s') : s'.clients = s.clients := by
  unfold forwardMessageToConsumers at h
  split at h
  · cases h
    rfl
  · rename_i name
    generalize s.consumers = consumers at h
    induction consumers generalizing s with
    | nil =>
      cases h
      rfl
    | cons c consumers ih =>
      obtain ⟨s₁, hstep, hrest⟩ := Option.bind_eq_some_iff.mp h
      have hone : s₁.clients = s.clients := by
        unfold forwardStep at hstep
        split at hstep
        · simp only at hstep
          split at hstep
          · obtain ⟨r, -, rfl⟩ := Option.map_eq_some_iff.mp hstep
            rfl
          · cases hstep
            rfl
        · cases hstep
          rfl
      exact (ih hrest).trans hone

theorem routeTo_clients {message : Message} {b : Binding} {s s' : Server} {routed routed' : Nat}
    (h : routeTo message b s routed = some (s', routed')) : s'.clients = s.clients := by
  unfold routeTo at h
  split at h
  · cases h
    rfl
  · simp only at h
    split at h
    · obtain ⟨s₁, hforward, he⟩ := Option.map_eq_some_iff.mp h
      cases he
      have hclients := forward_clients hforward
      exact hclients
    · cases h
      rfl

theorem routeLoop_clients {exchange : Nat} {message : Message} {bs : List Binding} {s s' : Server} {routed routed' : Nat}
    (h : routeLoop exchange message bs s routed = some (s', routed')) : s'.clients = s.clients := by
  induction bs generalizing s routed with
  | nil =>
    cases h
    rfl
  | cons b bs ih =>
    unfold routeLoop at h
    split at h
    · cases h
    · exact ih h
    · obtain ⟨⟨s₁, routed₁⟩, hone, hrest⟩ := Option.bind_eq_some_iff.mp h
      exact (ih hrest).trans (routeTo_clients hone)

theorem publish_clients {exchange : Nat} {message : Message} {s s' : Server} {result : Nat}
    (h : brokerPublish exchange message s = some (result, s')) : s'.clients = s.clients := by
  unfold brokerPublish at h
  split at h
  · cases h
    rfl
  · obtain ⟨⟨routed, s₁⟩, hroute, he⟩ := Option.map_eq_some_iff.mp h
    obtain ⟨⟨s₂, routed₂⟩, hloop, he₂⟩ := Option.map_eq_some_iff.mp hroute
    have hclients := routeLoop_clients hloop
    have hroute' : s₁.clients = s₂.clients := by
      simp only at he₂
      split at he₂
      · cases he₂
        rfl
      split at he₂
      · cases he₂
        rfl
      · cases he₂
        rfl
    simp only at he
    split at he
    · cases he
      exact hroute'.trans hclients
    · cases he
      exact hroute'.trans hclients

/-- A handler thread leaves every slot in use, and no other. -/
theorem handle_slots {i : Nat} {m : Message} {s s' : Server} (h : handleMessage i m s = some s') : SameSlots s s' := by
  unfold handleMessage at h
  split at h
  · cases h
  · cases h
    intro j
    obtain ⟨hfd, hrunning⟩ := (registerConsumer_frame i (registeredName m.toFields) s).2.2.2 j
    exact ⟨hfd, fun _ => hrunning⟩
  · split at h
    · cases h
      exact sameSlots_of_eq rfl
    split at h
    · cases h
    · cases h
      exact sameSlots_of_eq rfl
    · obtain ⟨⟨result, s₁⟩, hpublish, he⟩ := Option.map_eq_some_iff.mp h
      cases he
      exact sameSlots_of_eq (publish_clients hpublish)

/-! ## The slots -/

section Slots

variable {n n' : Network} {clientFd : Int} {i : Nat}

theorem mem_used {i : Nat} : i ∈ used n ↔ i < MAX_CONNECTIONS ∧ (n.server.clients i).fd ≠ -1 := by
  simp [used]

theorem used_nodup (n : Network) : (used n).Nodup := List.nodup_range.filter _

theorem used_congr (n n' : Network) (h : ∀ i, (n'.server.clients i).fd = (n.server.clients i).fd) :
    used n' = used n ∧ stored n' = stored n := by
  have hused : used n' = used n := by simp only [used, h]
  exact ⟨hused, by simp only [stored, hused, h]⟩

theorem used_nil (h : ∀ i, i < MAX_CONNECTIONS → (n.server.clients i).fd = -1) : used n = [] :=
  List.filter_eq_nil_iff.mpr fun i hi => by simpa using h i (List.mem_range.mp hi)

/-- With a slot to spare, the search finds one. -/
theorem freeSlot_isSome (h : (used n).length < MAX_CONNECTIONS) : (freeSlot n.server.clients).isSome = true := by
  by_contra hno
  have hnone : freeSlot n.server.clients = none := by simpa using hno
  have hall : used n = List.range MAX_CONNECTIONS := by
    refine List.filter_eq_self.mpr fun i hi => ?_
    simpa using List.find?_eq_none.mp hnone i hi
  rw [hall, List.length_range] at h
  exact absurd h (Nat.lt_irrefl _)

/-- Slot `i` is free in `n` and in use in `n'`; the others have the same descriptors. -/
structure Fills (n : Network) (i : Nat) (n' : Network) : Prop where
  slot : i < MAX_CONNECTIONS
  free : (n.server.clients i).fd = -1
  fd : (n'.server.clients i).fd ≠ -1
  others : ∀ j, j ≠ i → (n'.server.clients j).fd = (n.server.clients j).fd

theorem Fills.used (h : Fills n i n') : (used n').Perm (i :: used n) := by
  have hnot : i ∉ RabbitMQ.Core.used n := fun hi => (mem_used.mp hi).2 h.free
  refine (List.perm_ext_iff_of_nodup (used_nodup n') (List.nodup_cons.mpr ⟨hnot, used_nodup n⟩)).mpr fun j => ?_
  rw [List.mem_cons, mem_used, mem_used]
  by_cases hj : j = i
  · subst hj
    exact iff_of_true ⟨h.slot, h.fd⟩ (Or.inl rfl)
  · rw [h.others j hj]
    exact ⟨Or.inr, fun hor => hor.resolve_left hj⟩

theorem Fills.length (h : Fills n i n') : (RabbitMQ.Core.used n').length = (RabbitMQ.Core.used n).length + 1 := h.used.length_eq

theorem Fills.stored (h : Fills n i n') : (stored n').Perm ((n'.server.clients i).fd :: stored n) := by
  have hnot : i ∉ RabbitMQ.Core.used n := fun hi => (mem_used.mp hi).2 h.free
  refine (h.used.map _).trans ?_
  rw [List.map_cons]
  refine List.Perm.cons _ (List.Perm.of_eq (List.map_congr_left fun j hj => ?_))
  rw [h.others j fun he => hnot (he ▸ hj)]

/-! ## One turn -/

/-- A client is in slot `i`, which was free, and its handler is to be created. -/
structure TakesIn (n : Network) (clientFd : Int) (i : Nat) (n' : Network) : Prop extends Fills n i n' where
  stores : (n'.server.clients i).fd = clientFd
  running : (n'.server.clients i).running = true
  same : ∀ j, j ≠ i → n'.server.clients j = n.server.clients j
  fds : n'.clientFds = n.clientFds
  count : n'.clientCount = n.clientCount
  place : n'.place = .creating i

theorem take_cases (hroom : n.clientCount < MAX_CONNECTIONS → (freeSlot n.server.clients).isSome = true) (hfd : 0 ≤ clientFd) :
    (takeCloses clientFd n = [] ∧ ∃ i, TakesIn n clientFd i (takeClient clientFd n)) ∨
      (takeCloses clientFd n = [clientFd] ∧ takeClient clientFd n = { n with place := .looking }) := by
  have hneg : ¬ clientFd < 0 := by omega
  unfold takeCloses takeClient
  rw [if_neg hneg]
  by_cases hcount : n.clientCount < MAX_CONNECTIONS
  · obtain ⟨i, hfree⟩ := Option.isSome_iff_exists.mp (hroom hcount)
    obtain ⟨hi, hempty⟩ := freeSlot_some hfree
    rw [if_neg fun hfull => Nat.not_lt_of_le hfull.2 hcount]
    simp only [if_pos hcount, hfree]
    refine Or.inl ⟨trivial, i, ⟨hi, hempty, ?_, fun j hj => ?_⟩, ?_, ?_, fun j hj => ?_, rfl, rfl, rfl⟩
    · simp only [Function.update_self]
      omega
    · simp only [Function.update_of_ne hj]
    · simp only [Function.update_self]
    · simp only [Function.update_self]
    · simp only [Function.update_of_ne hj]
  · rw [if_pos ⟨hfd, Nat.le_of_not_lt hcount⟩, if_neg hcount]
    exact Or.inr ⟨rfl, rfl⟩

theorem turn_places (hroom : n.clientCount < MAX_CONNECTIONS → (freeSlot n.server.clients).isSome = true) (hfd : 0 ≤ clientFd)
    (thread : Bool) : Places n clientFd thread := by
  unfold Places acceptCloses acceptClient
  rcases take_cases hroom hfd with ⟨hcloses, i, ht⟩ | ⟨hcloses, hsame⟩
  · rw [hcloses]
    simp only [createCloses, createHandler, ht.place]
    cases thread with
    | true =>
      refine Or.inl ⟨rfl, i, ht.slot, ht.free, ht.stores, ht.running, ?_, ht.same⟩
      simp only [if_true, Function.update_self]
    | false =>
      refine Or.inr ⟨?_, fun j => ?_⟩
      · simp only [Bool.false_eq_true, if_false, ht.stores, List.nil_append]
      · simp only [Bool.false_eq_true, if_false]
        by_cases hj : j = i
        · subst hj
          simp only [Function.update_self, ht.free]
        · simp only [Function.update_of_ne hj, ht.others j hj]
  · rw [hcloses, hsame]
    exact Or.inr ⟨rfl, fun _ => rfl⟩

end Slots

/-! ## What every step keeps -/

/-- What the accounts come to at each place of the thread. -/
def AtPlace (n : Network) : AcceptorPlace → Prop
  | .looking | .accepting => n.clientCount = (used n).length
  | .creating i =>
    i < MAX_CONNECTIONS ∧ (n.server.clients i).fd ≠ -1 ∧ n.clientFds i = -1 ∧ n.clientCount + 1 = (used n).length
  | .closing i => ∀ j, j < i → j < MAX_CONNECTIONS → (n.server.clients j).fd = -1
  | .joining i =>
    i < MAX_CONNECTIONS ∧ (n.server.clients i).fd ≠ -1 ∧ ∀ j, j < i → j < MAX_CONNECTIONS → (n.server.clients j).fd = -1
  | .exited => n.clientCount = 0 ∧ used n = []

structure Audited (s : Accepting) : Prop where
  fds : ∀ i, i < MAX_CONNECTIONS → s.network.place ≠ .creating i → s.network.clientFds i = (s.network.server.clients i).fd
  running : ∀ i ∈ used s.network, s.network.place ≠ .joining i → (s.network.server.clients i).running = true
  accepted : Placed s
  place : AtPlace s.network s.network.place

section Accounts

variable {s : Accepting}

theorem audited_keeps (h : Audited s) {n' : Network} (hslots : SameSlots s.network.server n'.server)
    (hfds : n'.clientFds = s.network.clientFds) (hcount : n'.clientCount = s.network.clientCount)
    (hplace : n'.place = s.network.place) : Audited { s with network := n' } := by
  obtain ⟨hused, hstored⟩ := used_congr s.network n' fun i => (hslots i).1
  refine ⟨fun i hi hp => ?_, fun i hi hp => ?_, ?_, ?_⟩
  · simp only [hfds, (hslots i).1]
    exact h.fds i hi (hplace ▸ hp)
  · simp only [hused] at hi
    simp only [(hslots i).2 (mem_used.mp hi).2]
    exact h.running i hi (hplace ▸ hp)
  · simp only [Placed, hstored]
    exact h.accepted
  · have hat := h.place
    show AtPlace n' n'.place
    rw [hplace]
    cases hp : s.network.place <;> rw [hp] at hat <;> simp only [AtPlace, (hslots _).1, hfds, hcount, hused] at hat ⊢ <;> exact hat

/-- Only the thread has moved on, neither to a slot nor to a join. -/
theorem audited_moves (h : Audited s) {place : AcceptorPlace} (hcreating : ∀ i, s.network.place ≠ .creating i)
    (hjoining : ∀ i, s.network.place ≠ .joining i) (hat : AtPlace s.network place) :
    Audited { s with network := { s.network with place } } := by
  refine ⟨fun i hi _ => h.fds i hi (hcreating i), fun i hi _ => h.running i hi (hjoining i), h.accepted, ?_⟩
  cases place <;> exact hat

/-- No slot is in use, and all that was accepted is closed. -/
theorem audited_begins (n : Network) {accepted closed : List Int} (hclosed : accepted.Perm closed) (running : Bool) :
    Audited ⟨{ initSlots n with running, place := .looking }, accepted, closed⟩ := by
  have hslots : ∀ i, i < MAX_CONNECTIONS → ((initSlots n).server.clients i).fd = -1 := fun i hi => by
    simp only [initSlots, if_pos hi]
  have hused : used { initSlots n with running, place := .looking } = [] := used_nil hslots
  refine ⟨fun i hi _ => ?_, fun i hi _ => ?_, ?_, ?_⟩
  · simp only [initSlots, if_pos hi]
  · rw [hused] at hi
    cases hi
  · simp only [Placed, stored, hused, List.map_nil, List.nil_append]
    exact hclosed
  · simp only [AtPlace, hused]
    rfl

theorem audited_room (h : Audited s) (hbetween : BetweenTurns s.network) (hcount : s.network.clientCount < MAX_CONNECTIONS) :
    (freeSlot s.network.server.clients).isSome = true := by
  refine freeSlot_isSome ?_
  have hat := h.place
  rcases hbetween with hp | hp | hp <;> rw [hp] at hat
  · exact hat ▸ hcount
  · exact hat ▸ hcount
  · rw [hat.2]
    exact Nat.zero_lt_succ _

theorem audited_accept (h : Audited s) (clientFd : Int) : Audited (acceptingStep s (.accept clientFd)) := by
  by_cases hp : s.network.place = .accepting
  swap
  · simp only [acceptingStep, if_neg hp]
    exact h
  simp only [acceptingStep, networkStep, if_pos hp]
  have hat : AtPlace s.network .accepting := hp ▸ h.place
  have hback : Audited { s with network := { s.network with place := .looking } } :=
    audited_moves h (fun i => by simp [hp]) (fun i => by simp [hp]) hat
  by_cases hneg : clientFd < 0
  · have hsame : takeClient clientFd s.network = { s.network with place := .looking } := by rw [takeClient, if_pos hneg]
    have hnone : takeCloses clientFd s.network = [] := if_neg fun hfull => by omega
    rw [hsame, hnone, if_pos hneg, List.append_nil, List.append_nil]
    exact hback
  have hfd : 0 ≤ clientFd := by omega
  rw [if_neg hneg]
  rcases take_cases (audited_room h (Or.inr (Or.inl hp))) hfd with ⟨hcloses, i, ht⟩ | ⟨hcloses, hsame⟩
  · rw [hcloses, List.append_nil]
    refine ⟨fun j hj hne => ?_, fun j hj _ => ?_, ?_, ?_⟩
    · have hji : j ≠ i := fun he => hne (he ▸ ht.place)
      show (takeClient clientFd s.network).clientFds j = _
      rw [ht.fds, ht.others j hji]
      exact h.fds j hj (by simp [hp])
    · show ((takeClient clientFd s.network).server.clients j).running = true
      by_cases hji : j = i
      · subst hji
        exact ht.running
      · rw [ht.same j hji]
        exact h.running j ((List.mem_cons.mp (ht.used.mem_iff.mp hj)).resolve_left hji) (by simp [hp])
    · have happ : (s.accepted ++ [clientFd]).Perm (clientFd :: (stored s.network ++ s.closed)) :=
        List.perm_append_comm.trans (h.accepted.cons clientFd)
      have hstored := ht.stored
      rw [ht.stores] at hstored
      exact happ.trans (hstored.symm.append_right s.closed)
    · show AtPlace (takeClient clientFd s.network) (takeClient clientFd s.network).place
      rw [ht.place]
      have hclientFds : s.network.clientFds i = (s.network.server.clients i).fd := h.fds i ht.slot (by simp [hp])
      refine ⟨ht.slot, ht.fd, ?_, ?_⟩
      · rw [ht.fds, hclientFds, ht.free]
      · rw [ht.count, ht.length, show s.network.clientCount = _ from hat]
  · rw [hcloses, hsame]
    refine ⟨hback.fds, hback.running, ?_, hback.place⟩
    show (s.accepted ++ [clientFd]).Perm (stored s.network ++ (s.closed ++ [clientFd]))
    rw [← List.append_assoc]
    exact h.accepted.append_right [clientFd]

/-- Slot `i` is given back and its descriptor closed. -/
theorem Fills.releases {n : Network} {i : Nat} (h : Fills n i s.network) (hplaced : Placed s) :
    Placed ⟨n, s.accepted, s.closed ++ [(s.network.server.clients i).fd]⟩ := by
  refine hplaced.trans ((h.stored.append_right s.closed).trans ?_)
  show ((s.network.server.clients i).fd :: (RabbitMQ.Core.stored n ++ s.closed)).Perm
    (RabbitMQ.Core.stored n ++ (s.closed ++ [(s.network.server.clients i).fd]))
  rw [← List.append_assoc]
  exact (List.perm_append_singleton _ _).symm

/-- The slot the thread is at is given back, its descriptor closed. -/
theorem audited_frees {n : Network} {i : Nat} (h : Audited s) (hfills : Fills n i s.network) (hfd : n.clientFds i = -1)
    (hsame : ∀ j, j ≠ i → n.server.clients j = s.network.server.clients j ∧ n.clientFds j = s.network.clientFds j)
    (hp : s.network.place = .creating i ∨ s.network.place = .joining i) (hat : AtPlace n n.place) :
    Audited ⟨n, s.accepted, s.closed ++ [(s.network.server.clients i).fd]⟩ := by
  refine ⟨fun j hj _ => ?_, fun j hj _ => ?_, hfills.releases h.accepted, hat⟩
  · by_cases hji : j = i
    · subst hji
      exact hfd.trans hfills.free.symm
    · have hcreating : s.network.place ≠ .creating j := by
        rcases hp with hp | hp <;> simp [hp, Ne.symm hji]
      rw [(hsame j hji).1, (hsame j hji).2]
      exact h.fds j hj hcreating
  · have hji : j ≠ i := fun he => (mem_used.mp hj).2 (he ▸ hfills.free)
    have hjoining : s.network.place ≠ .joining j := by
      rcases hp with hp | hp <;> simp [hp, Ne.symm hji]
    rw [(hsame j hji).1]
    exact h.running j (hfills.used.mem_iff.mpr (List.mem_cons_of_mem i hj)) hjoining

theorem audited_create (h : Audited s) (thread : Bool) : Audited (acceptingStep s (.create thread)) := by
  cases hp : s.network.place with
  | creating i =>
    have hat : AtPlace s.network (.creating i) := hp ▸ h.place
    obtain ⟨hi, hused, hfdi, hcount⟩ := hat
    cases thread with
    | true =>
      simp only [acceptingStep, networkStep, createHandler, createCloses, hp, if_true, List.append_nil]
      refine ⟨fun j hj _ => ?_, fun j hj _ => h.running j hj (by simp [hp]), h.accepted, hcount⟩
      by_cases hji : j = i
      · subst hji
        exact Function.update_self ..
      · exact (Function.update_of_ne hji ..).trans (h.fds j hj (by simp [hp, Ne.symm hji]))
    | false =>
      simp only [acceptingStep, networkStep, createHandler, createCloses, hp, Bool.false_eq_true, if_false]
      have hfills : Fills { s.network with
          server := { s.network.server with
            clients := Function.update s.network.server.clients i { s.network.server.clients i with fd := -1, running := false } }
          place := .looking } i s.network := by
        refine ⟨hi, ?_, hused, fun j hj => ?_⟩
        · simp only [Function.update_self]
        · simp only [Function.update_of_ne hj]
      rw [hfills.length] at hcount
      exact audited_frees h hfills hfdi (fun j hj => ⟨Function.update_of_ne hj .., rfl⟩) (Or.inl hp) (Nat.succ_inj.mp hcount)
  | _ =>
    simp only [acceptingStep, networkStep, createHandler, createCloses, hp, List.append_nil]
    exact h

/-- A slot that is free is passed over; in one that is in use, only `running` changes. -/
theorem audited_closing {i : Nat} (h : Audited s) (hp : s.network.place = .closing i) : Audited (acceptingStep s .close) := by
  have hbelow : AtPlace s.network (.closing i) := hp ▸ h.place
  simp only [acceptingStep, networkStep, closeStep, joinCloses, hp, List.append_nil]
  by_cases hi : i < MAX_CONNECTIONS
  swap
  · have hnone : used s.network = [] := used_nil fun j hj => hbelow j (by omega) hj
    rw [if_neg hi]
    exact ⟨fun j hj _ => h.fds j hj (by simp [hp]), fun j hj _ => h.running j hj (by simp [hp]), h.accepted, rfl, hnone⟩
  rw [if_pos hi]
  by_cases hfree : (s.network.server.clients i).fd = -1
  · rw [if_pos hfree]
    refine audited_moves h (fun j => by simp [hp]) (fun j => by simp [hp]) fun j hj hmax => ?_
    rcases Nat.lt_succ_iff_lt_or_eq.mp hj with hlt | rfl
    · exact hbelow j hlt hmax
    · exact hfree
  rw [if_neg hfree]
  have hfd : ∀ j, (Function.update s.network.server.clients i { s.network.server.clients i with running := false } j).fd =
      (s.network.server.clients j).fd := by
    intro j
    by_cases hji : j = i
    · subst hji
      rw [Function.update_self]
    · rw [Function.update_of_ne hji]
  obtain ⟨hused, hstored⟩ := used_congr s.network { s.network with
    server := { s.network.server with
      clients := Function.update s.network.server.clients i { s.network.server.clients i with running := false } }
    place := .joining i } hfd
  refine ⟨fun j hj _ => ?_, fun j hj hne => ?_, ?_, hi, ?_, fun j hj hmax => ?_⟩
  · exact (h.fds j hj (by simp [hp])).trans (hfd j).symm
  · have hji : j ≠ i := fun he => hne (he ▸ rfl)
    rw [hused] at hj
    simp only [Function.update_of_ne hji]
    exact h.running j hj (by simp [hp])
  · rw [Placed, hstored]
    exact h.accepted
  · exact fun he => hfree ((hfd i).symm.trans he)
  · exact (hfd j).trans (hbelow j hj hmax)

theorem audited_joining {i : Nat} (h : Audited s) (hp : s.network.place = .joining i) : Audited (acceptingStep s .close) := by
  have hat : AtPlace s.network (.joining i) := hp ▸ h.place
  obtain ⟨hi, hused, hbelow⟩ := hat
  simp only [acceptingStep, networkStep, closeStep, joinCloses, hp]
  by_cases hwaits : s.network.handlers i = true
  · rw [if_pos hwaits, if_pos hwaits, List.append_nil]
    exact h
  rw [if_neg hwaits, if_neg hwaits]
  have hfills : Fills { s.network with
      server := { s.network.server with
        clients := Function.update s.network.server.clients i { s.network.server.clients i with fd := -1 } }
      clientFds := Function.update s.network.clientFds i (-1)
      place := .closing (i + 1) } i s.network := by
    refine ⟨hi, ?_, hused, fun j hj => ?_⟩
    · simp only [Function.update_self]
    · simp only [Function.update_of_ne hj]
  have hsame : ∀ j, j ≠ i →
      Function.update s.network.server.clients i { s.network.server.clients i with fd := -1 } j = s.network.server.clients j ∧
        Function.update s.network.clientFds i (-1) j = s.network.clientFds j :=
    fun j hj => ⟨Function.update_of_ne hj .., Function.update_of_ne hj ..⟩
  refine audited_frees h hfills (Function.update_self ..) hsame (Or.inr hp) fun j hj hmax => ?_
  rcases Nat.lt_succ_iff_lt_or_eq.mp hj with hlt | rfl
  · exact (hfills.others j (Nat.ne_of_lt hlt)).symm.trans (hbelow j hlt hmax)
  · exact hfills.free

theorem audited_close (h : Audited s) : Audited (acceptingStep s .close) := by
  cases hp : s.network.place with
  | closing i => exact audited_closing h hp
  | joining i => exact audited_joining h hp
  | _ =>
    simp only [acceptingStep, networkStep, closeStep, joinCloses, hp, List.append_nil]
    exact h

theorem audited_start (h : Audited s) (network listens eventLoop : Bool) :
    Audited (acceptingStep s (.start network listens eventLoop)) := by
  simp only [acceptingStep, networkStep, brokerStart]
  split
  · rename_i hp
    have hat : AtPlace s.network .exited := hp ▸ h.place
    have hclosed : s.accepted.Perm s.closed := by
      have hperm := h.accepted
      rwa [Placed, stored, hat.2] at hperm
    repeat' split
    · exact h
    · exact h
    · exact audited_begins s.network hclosed eventLoop
    · exact audited_keeps h (sameSlots_of_eq rfl) rfl rfl rfl
  · exact h

theorem audited_look (h : Audited s) : Audited (acceptingStep s .look) := by
  simp only [acceptingStep, networkStep]
  split
  · rename_i hp
    have hat : AtPlace s.network .looking := hp ▸ h.place
    refine audited_moves h (fun i => by simp [hp]) (fun i => by simp [hp]) ?_
    split
    · exact hat
    · exact fun j hj => absurd hj (Nat.not_lt_zero j)
  · exact h

theorem audited_receive (h : Audited s) (i : Nat) (m : Message) : Audited (acceptingStep s (.receive i m)) := by
  simp only [acceptingStep, networkStep, receiveStep]
  split
  · split
    · exact h
    · rename_i hm
      exact audited_keeps h (handle_slots hm) rfl rfl rfl
  · exact h

theorem audited_step (s : Accepting) (e : NetworkEvent) (h : Audited s) : Audited (acceptingStep s e) := by
  cases e with
  | start network listens eventLoop => exact audited_start h network listens eventLoop
  | stop => exact audited_keeps h (sameSlots_of_eq rfl) rfl rfl rfl
  | look => exact audited_look h
  | accept clientFd => exact audited_accept h clientFd
  | create thread => exact audited_create h thread
  | close => exact audited_close h
  | disconnect i => exact audited_keeps h (sameSlots_of_eq rfl) rfl rfl rfl
  | receive i m => exact audited_receive h i m

theorem audited_tallied (h : Audited s) (hbetween : BetweenTurns s.network) : Tallied s := by
  have hcreating : ∀ i, s.network.place ≠ .creating i := fun i hp => by
    rcases hbetween with h | h | h <;> rw [h] at hp <;> cases hp
  have hjoining : ∀ i, s.network.place ≠ .joining i := fun i hp => by
    rcases hbetween with h | h | h <;> rw [h] at hp <;> cases hp
  refine ⟨?_, fun i hi => h.fds i hi (hcreating i), fun i hi => h.running i hi (hjoining i), h.accepted, fun hp => ?_⟩
  · have hat := h.place
    rcases hbetween with hp | hp | hp <;> rw [hp] at hat
    · exact hat
    · exact hat
    · rw [hat.1, hat.2]
      rfl
  · have hat : AtPlace s.network .exited := hp ▸ h.place
    exact hat.2

end Accounts

/-- At every step; and between two turns, for the next descriptor. -/
theorem accepts_are_tallied (n : Network) (es : List NetworkEvent) :
    Placed (Run.run acceptingStep (threadBegins n) es) ∧
      (BetweenTurns (Run.run acceptingStep (threadBegins n) es).network → Tallied (Run.run acceptingStep (threadBegins n) es) ∧
        ((Run.run acceptingStep (threadBegins n) es).network.clientCount < MAX_CONNECTIONS →
          (freeSlot (Run.run acceptingStep (threadBegins n) es).network.server.clients).isSome = true) ∧
        ∀ clientFd, 0 ≤ clientFd → ∀ thread, Places (Run.run acceptingStep (threadBegins n) es).network clientFd thread) := by
  have h := Run.run_inv audited_step es (audited_begins n (List.Perm.refl []) n.running)
  refine ⟨h.accepted, fun hbetween => ⟨audited_tallied h hbetween, audited_room h hbetween, fun clientFd hfd thread => ?_⟩⟩
  exact turn_places (audited_room h hbetween) hfd thread

end RabbitMQ.Core
