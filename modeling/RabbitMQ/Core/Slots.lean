/-
  RabbitMQ.Core.Slots — the slots for client connections, while the broker runs.

  The network thread stores each client it accepts in the first free slot and counts it. A
  handler thread returns when its client is gone; it gives back neither the slot nor the
  count. So slots fill from the first on, and are not used again (`Filling`).

  Proved: the next client gets a slot whenever fewer than `MAX_CONNECTIONS` are connected,
  exactly in the runs where the last slot is not taken with a client gone and no client goes
  once it is taken (`slots_recycled_iff`, `a_hundred_visits_close_the_broker`).
-/

import Mathlib.Data.Finset.Card
import RabbitMQ.Core.Network

namespace RabbitMQ.Core

open Lib

/-! ## Visits -/

inductive Visit where
  /-- `accept` returns `clientFd`, the handler thread can be created, and the network thread
      goes on to the next `accept`. -/
  | connect (clientFd : Int)
  | leave (i : Nat)

def visitStep (n : Network) : Visit → Network
  | .connect clientFd => Run.run networkStep n [.accept clientFd, .create true, .look]
  | .leave i => networkStep n (.disconnect i)

/-- A broker that does not run, with no thread left. -/
structure Resting (n : Network) : Prop where
  running : n.running = false
  place : n.place = .exited
  handlers : n.handlers = fun _ => false

def startNetwork (n : Network) : Network := Run.run networkStep n [.start true true true, .look]

/-- The clients whose handler thread has not returned. -/
def connected (n : Network) : Nat := ((Finset.range MAX_CONNECTIONS).filter fun i => n.handlers i = true).card

/-- The next client accepted is stored in a slot that has no handler, and gets one. -/
def Welcomes (n : Network) : Prop :=
  ∀ clientFd, 0 ≤ clientFd → ∃ i, i < MAX_CONNECTIONS ∧ n.handlers i = false ∧
    (visitStep n (.connect clientFd)).handlers i = true ∧
    ((visitStep n (.connect clientFd)).server.clients i).fd = clientFd

/-- A client gets a slot when fewer than `MAX_CONNECTIONS` are connected. -/
def Recycles (n : Network) : Prop := connected n < MAX_CONNECTIONS → Welcomes n

/-- The last slot is taken with every client still there, and none goes after that. -/
def keepsRoom (n : Network) : Visit → Prop
  | .connect clientFd => 0 ≤ clientFd → n.clientCount + 1 < MAX_CONNECTIONS ∨ connected n = n.clientCount
  | .leave i => n.handlers i = true → n.clientCount < MAX_CONNECTIONS

/-! ## Slots fill up -/

/-- The slots in use are the first `client_count`; only these have handlers. -/
structure Filling (n : Network) : Prop where
  running : n.running = true
  place : n.place = .accepting
  count : n.clientCount ≤ MAX_CONNECTIONS
  used : ∀ i, i < n.clientCount → (n.server.clients i).fd ≠ -1
  free : ∀ i, n.clientCount ≤ i → i < MAX_CONNECTIONS → (n.server.clients i).fd = -1
  handlers : ∀ i, n.handlers i = true → i < n.clientCount

theorem startNetwork_eq {n : Network} (h : Resting n) :
    startNetwork n = { initSlots n with place := .accepting, running := true } := by
  simp only [startNetwork, Run.run, List.foldl_cons, List.foldl_nil, networkStep, h.place, brokerStart, h.running,
    Bool.false_eq_true, if_false, Bool.not_true, if_true]

theorem started_filling {n : Network} (h : Resting n) : Filling (startNetwork n) := by
  rw [startNetwork_eq h]
  simp only [initSlots]
  refine ⟨rfl, rfl, Nat.zero_le _, fun i hi => absurd hi (Nat.not_lt_zero i), fun i _ hi => ?_, fun i hi => ?_⟩
  · simp only [if_pos hi]
  · have hno : n.handlers i = false := congrFun h.handlers i
    have hyes : n.handlers i = true := hi
    rw [hno] at hyes
    cases hyes

section Filled

variable {n : Network}

theorem filling_free (h : Filling n) (hlt : n.clientCount < MAX_CONNECTIONS) :
    freeSlot n.server.clients = some n.clientCount := by
  rw [freeSlot, List.find?_range_eq_some]
  refine ⟨decide_eq_true (h.free _ (Nat.le_refl _) hlt), List.mem_range.mpr hlt, fun j hj => ?_⟩
  simpa using h.used j hj

theorem connect_eq (h : Filling n) (clientFd : Int) :
    visitStep n (.connect clientFd) = { acceptClient clientFd true n with place := .accepting } := by
  rw [visitStep, run_turn h.place, if_pos h.running]

/-- A client accepted into the next slot. -/
theorem connect_stores (h : Filling n) (hlt : n.clientCount < MAX_CONNECTIONS) {clientFd : Int} (hfd : 0 ≤ clientFd) :
    Filling (visitStep n (.connect clientFd)) ∧
      (visitStep n (.connect clientFd)).clientCount = n.clientCount + 1 ∧
      (visitStep n (.connect clientFd)).handlers = Function.update n.handlers n.clientCount true ∧
      ((visitStep n (.connect clientFd)).server.clients n.clientCount).fd = clientFd := by
  have hneg : ¬ clientFd < 0 := by omega
  have hfree := filling_free h hlt
  rw [connect_eq h]
  simp only [acceptClient, takeClient, if_neg hneg, if_pos hlt, hfree, createHandler, if_true, Function.update_self]
  refine ⟨⟨h.running, rfl, hlt, fun i hi => ?_, fun i hge hi => ?_, fun i hi => ?_⟩, trivial, trivial, trivial⟩
  · have hi' : i < n.clientCount + 1 := hi
    by_cases he : i = n.clientCount
    · subst he
      simp only [Function.update_self]
      omega
    · simp only [Function.update_of_ne he]
      exact h.used i (by omega)
  · have hge' : n.clientCount + 1 ≤ i := hge
    have hne : i ≠ n.clientCount := by omega
    simp only [Function.update_of_ne hne]
    exact h.free i (by omega) hi
  · show i < n.clientCount + 1
    by_cases he : i = n.clientCount
    · omega
    · simp only [Function.update_of_ne he] at hi
      have hold := h.handlers i hi
      omega

/-- With all slots used, or none accepted, nothing happens. -/
theorem connect_closes (h : Filling n) {clientFd : Int} (hno : clientFd < 0 ∨ MAX_CONNECTIONS ≤ n.clientCount) :
    visitStep n (.connect clientFd) = n := by
  have hsame : acceptClient clientFd true n = { n with place := .looking } := by
    unfold acceptClient takeClient
    rcases hno with hneg | hfull
    · rw [if_pos hneg]
      rfl
    · rw [if_neg (Nat.not_lt_of_le hfull), ite_self]
      rfl
  rw [connect_eq h, hsame, ← h.place]

theorem leave_handlers (i : Nat) : (visitStep n (.leave i)).handlers = Function.update n.handlers i false := rfl

theorem filling_leave (h : Filling n) (i : Nat) : Filling (visitStep n (.leave i)) := by
  refine ⟨h.running, h.place, h.count, h.used, h.free, fun j hj => ?_⟩
  rw [leave_handlers] at hj
  by_cases he : j = i
  · subst he
    rw [Function.update_self] at hj
    cases hj
  · rw [Function.update_of_ne he] at hj
    exact h.handlers j hj

theorem filling_step (n : Network) (v : Visit) (h : Filling n) : Filling (visitStep n v) := by
  cases v with
  | connect clientFd =>
    by_cases hno : clientFd < 0 ∨ MAX_CONNECTIONS ≤ n.clientCount
    · rw [connect_closes h hno]
      exact h
    · exact (connect_stores h (by omega) (by omega)).1
  | leave i => exact filling_leave h i

/-! ## How many are connected -/

theorem connected_le (h : Filling n) : connected n ≤ n.clientCount := by
  have hsub : ((Finset.range MAX_CONNECTIONS).filter fun i => n.handlers i = true) ⊆ Finset.range n.clientCount := by
    intro i hi
    exact Finset.mem_range.mpr (h.handlers i (Finset.mem_filter.mp hi).2)
  have hle := Finset.card_le_card hsub
  rwa [Finset.card_range] at hle

theorem connected_joins {n' : Network} {i : Nat} (hi : i < MAX_CONNECTIONS) (hno : n.handlers i = false)
    (he : n'.handlers = Function.update n.handlers i true) : connected n' = connected n + 1 := by
  have hset : ((Finset.range MAX_CONNECTIONS).filter fun j => n'.handlers j = true) =
      insert i ((Finset.range MAX_CONNECTIONS).filter fun j => n.handlers j = true) := by
    ext j
    rw [Finset.mem_insert, Finset.mem_filter, Finset.mem_filter, he]
    by_cases hj : j = i
    · subst hj
      simp [hi]
    · simp [hj]
  have hnot : i ∉ (Finset.range MAX_CONNECTIONS).filter fun j => n.handlers j = true := by simp [hno]
  rw [connected, hset, Finset.card_insert_of_notMem hnot]
  rfl

theorem connected_leaves {n' : Network} {i : Nat} (hi : i < MAX_CONNECTIONS) (hyes : n.handlers i = true)
    (he : n'.handlers = Function.update n.handlers i false) : connected n' + 1 = connected n := by
  have hback : n.handlers = Function.update n'.handlers i true := by
    rw [he, Function.update_idem, ← hyes, Function.update_eq_self]
  have hno : n'.handlers i = false := by rw [he, Function.update_self]
  exact (connected_joins hi hno hback).symm

/-- A slot is left, or everybody is there. -/
theorem recycles_iff (h : Filling n) : Recycles n ↔ n.clientCount < MAX_CONNECTIONS ∨ MAX_CONNECTIONS ≤ connected n := by
  constructor
  · intro hrec
    by_contra hnot
    obtain ⟨i, -, hno, hyes, -⟩ := hrec (by omega) 0 (Int.le_refl 0)
    rw [connect_closes h (Or.inr (by omega))] at hyes
    rw [hno] at hyes
    cases hyes
  · intro hor hfew clientFd hfd
    have hlt : n.clientCount < MAX_CONNECTIONS := by omega
    obtain ⟨-, -, hhandlers, hstored⟩ := connect_stores h hlt hfd
    refine ⟨n.clientCount, hlt, ?_, ?_, hstored⟩
    · by_contra hyes
      have hlt' := h.handlers n.clientCount (by simpa using hyes)
      omega
    · rw [hhandlers, Function.update_self]

theorem recycles_connect (h : Filling n) (hrec : Recycles n) (clientFd : Int) :
    keepsRoom n (.connect clientFd) ↔ Recycles (visitStep n (.connect clientFd)) := by
  have hle := connected_le h
  have hcount := h.count
  rw [recycles_iff h] at hrec
  by_cases hno : clientFd < 0 ∨ MAX_CONNECTIONS ≤ n.clientCount
  · rw [connect_closes h hno, recycles_iff h, keepsRoom]
    refine iff_of_true (fun hfd => ?_) hrec
    right
    omega
  · have hlt : n.clientCount < MAX_CONNECTIONS := by omega
    obtain ⟨hfilling, hcount', hhandlers, -⟩ := connect_stores h hlt (show 0 ≤ clientFd by omega)
    have hempty : n.handlers n.clientCount = false := by
      by_contra hyes
      have hlt' := h.handlers n.clientCount (by simpa using hyes)
      omega
    have hjoin := connected_joins hlt hempty hhandlers
    rw [recycles_iff hfilling, hcount', hjoin, keepsRoom]
    omega

theorem recycles_leave (h : Filling n) (hrec : Recycles n) (i : Nat) :
    keepsRoom n (.leave i) ↔ Recycles (visitStep n (.leave i)) := by
  rw [recycles_iff (filling_leave h i), keepsRoom]
  rw [recycles_iff h] at hrec
  have hcount : (visitStep n (.leave i)).clientCount = n.clientCount := rfl
  rw [hcount]
  cases hi : n.handlers i with
  | false =>
    have hsame : connected (visitStep n (.leave i)) = connected n := by
      have hhandlers : (visitStep n (.leave i)).handlers = n.handlers := by
        rw [leave_handlers, ← hi, Function.update_eq_self]
      rw [connected, hhandlers]
      rfl
    rw [hsame]
    exact iff_of_true (fun hyes => by cases hyes) hrec
  | true =>
    have hslot := h.handlers i hi
    have hmax := h.count
    have hleave := connected_leaves (show i < MAX_CONNECTIONS by omega) hi (leave_handlers i)
    have hle := connected_le h
    constructor
    · exact fun hroom => Or.inl (hroom rfl)
    · intro hor _
      omega

/-! ## Nobody leaves -/

/-- Every slot taken has its handler. -/
def AllThere (n : Network) : Prop := ∀ i, i < n.clientCount → n.handlers i = true

theorem connected_all (h : Filling n) (hall : AllThere n) : connected n = n.clientCount := by
  have hset : ((Finset.range MAX_CONNECTIONS).filter fun i => n.handlers i = true) = Finset.range n.clientCount := by
    ext i
    rw [Finset.mem_filter, Finset.mem_range, Finset.mem_range]
    have hle := h.count
    exact ⟨fun hi => h.handlers i hi.2, fun hi => ⟨by omega, hall i hi⟩⟩
  rw [connected, hset, Finset.card_range]

/-- Clients that connect one after another take the slots in order. -/
theorem connects_fill (clientFds : List Int) (h : Filling n) (hall : AllThere n) (hfds : ∀ fd ∈ clientFds, 0 ≤ fd)
    (hroom : n.clientCount + clientFds.length ≤ MAX_CONNECTIONS) :
    Filling (Run.run visitStep n (clientFds.map .connect)) ∧ AllThere (Run.run visitStep n (clientFds.map .connect)) ∧
      (Run.run visitStep n (clientFds.map .connect)).clientCount = n.clientCount + clientFds.length := by
  induction clientFds generalizing n with
  | nil => exact ⟨h, hall, rfl⟩
  | cons fd clientFds ih =>
    rw [List.length_cons] at hroom
    obtain ⟨hnext, hcount, hhandlers, -⟩ := connect_stores h (by omega) (hfds fd List.mem_cons_self)
    have hallNext : AllThere (visitStep n (.connect fd)) := by
      intro i hi
      rw [hcount] at hi
      rw [hhandlers]
      by_cases he : i = n.clientCount
      · rw [he, Function.update_self]
      · rw [Function.update_of_ne he]
        exact hall i (by omega)
    obtain ⟨hfilling, hthere, hend⟩ := ih hnext hallNext (fun fd hfd => hfds fd (List.mem_cons_of_mem _ hfd)) (by omega)
    refine ⟨hfilling, hthere, ?_⟩
    rw [List.map_cons, Run.run_cons, hend, hcount, List.length_cons]
    omega

end Filled

theorem recycles_step (n : Network) (v : Visit) (h : Filling n) (hrec : Recycles n) :
    keepsRoom n v ↔ Recycles (visitStep n v) := by
  cases v with
  | connect clientFd => exact recycles_connect h hrec clientFd
  | leave i => exact recycles_leave h hrec i

/-- In every state of a run, or not. -/
theorem slots_recycled_iff {n : Network} (h : Resting n) (visits : List Visit) :
    (∀ vs, vs <+: visits → Recycles (Run.run visitStep (startNetwork n) vs)) ↔
      Run.Along visitStep keepsRoom (startNetwork n) visits := by
  have hfilling := started_filling h
  have hrec : Recycles (startNetwork n) := by
    rw [recycles_iff hfilling]
    left
    rw [startNetwork_eq h]
    exact Nat.zero_lt_succ _
  exact Run.along_iff filling_step recycles_step hfilling hrec

theorem aNetwork_resting : Resting aNetwork := ⟨rfl, rfl, rfl⟩

/-- A hundred clients connect, and the first leaves. -/
def hundredVisits : List Visit := (List.range MAX_CONNECTIONS).map (fun i => .connect (Int.ofNat i)) ++ [.leave 0]

/-- With 99 clients connected, the next is closed as over the limit. -/
theorem a_hundred_visits_close_the_broker : connected (Run.run visitStep (startNetwork aNetwork) hundredVisits) = 99 ∧
    ¬ Recycles (Run.run visitStep (startNetwork aNetwork) hundredVisits) := by
  have hvisits : hundredVisits = ((List.range MAX_CONNECTIONS).map Int.ofNat).map Visit.connect ++ [.leave 0] := by
    rw [hundredVisits, List.map_map]
    rfl
  obtain ⟨hfull, hthere, hcount⟩ := connects_fill ((List.range MAX_CONNECTIONS).map Int.ofNat)
    (started_filling aNetwork_resting) (fun i hi => absurd hi (Nat.not_lt_zero i))
    (fun fd hfd => by
      obtain ⟨i, -, rfl⟩ := List.mem_map.mp hfd
      exact Int.natCast_nonneg i)
    (by decide)
  rw [hvisits, Run.run_append]
  generalize Run.run visitStep (startNetwork aNetwork) (((List.range MAX_CONNECTIONS).map Int.ofNat).map .connect) = n
    at hfull hthere hcount ⊢
  have hcount' : n.clientCount = 100 := hcount
  have hleft : connected (visitStep n (.leave 0)) + 1 = connected n :=
    connected_leaves (by decide) (hthere 0 (by omega)) (leave_handlers 0)
  rw [connected_all hfull hthere, hcount'] at hleft
  have hconnected : connected (visitStep n (.leave 0)) = 99 := by omega
  refine ⟨hconnected, ?_⟩
  have hsame : (visitStep n (.leave 0)).clientCount = n.clientCount := rfl
  show ¬ Recycles (visitStep n (.leave 0))
  rw [recycles_iff (filling_leave hfull 0), hconnected, hsame, hcount']
  decide

theorem slots_recycled_with_room : Recycles (Run.run visitStep (startNetwork aNetwork) [.connect 5, .leave 0, .connect 6]) :=
  (slots_recycled_iff aNetwork_resting [.connect 5, .leave 0, .connect 6]).mpr
    ⟨fun _ => Or.inl (by decide), fun _ => by decide, fun _ => Or.inl (by decide), trivial⟩ _ List.prefix_rfl

end RabbitMQ.Core
