/-
  RabbitMQ.Core.Timeouts — what one `queue_process_timeouts` does to a whole queue.

  With room for every message due the pass frees nothing and prepends them in reverse order
  of delivery (`pass_whole`): it scans the deliveries from the oldest on and pushes each
  message due at the head, in front of the ones pushed before it.
  - The entries due are taken out exactly when `requeued_count`, an `int`, is positive after
    counting them: from 2^31 on it has wrapped, and the clean-up is skipped with every
    entry marked and its message back in the ring (`moves_exactly_iff`,
    `a_count_that_wraps_keeps_the_entries`).
  - Two messages due come back in the wrong order, whichever they are; so with the tags in
    order a pass keeps it exactly when it takes back one message at most (`order_kept_iff`,
    `two_expired_are_swapped`).
-/

import RabbitMQ.Core.QueueBooks
import RabbitMQ.Core.Tags
import RabbitMQ.Lib.Before

namespace RabbitMQ.Core

open Lib

variable {μ : Type}

/-! ## The pass as a whole -/

/-- What a turn does not touch. -/
theorem timeoutStep_frame (now timeout : Int) (p : Pass μ) (i : Nat) :
    (timeoutStep now timeout p i).q.tail = p.q.tail ∧
      (timeoutStep now timeout p i).q.unackedCapacity = p.q.unackedCapacity := by
  unfold timeoutStep
  by_cases he : expired now timeout (p.q.unackedMessages i) = true
  · simp only [if_pos he]
    split
    · exact ⟨rfl, rfl⟩
    · exact ⟨rfl, rfl⟩
  · rw [if_neg he]
    exact ⟨rfl, rfl⟩

theorem pass_frame (now timeout : Int) (cells : List Nat) (p : Pass μ) :
    (cells.foldl (timeoutStep now timeout) p).q.tail = p.q.tail ∧
      (cells.foldl (timeoutStep now timeout) p).q.unackedCapacity = p.q.unackedCapacity := by
  induction cells generalizing p with
  | nil => exact ⟨rfl, rfl⟩
  | cons i cells ih =>
    obtain ⟨htail, hcapacity⟩ := timeoutStep_frame now timeout p i
    obtain ⟨htail', hcapacity'⟩ := ih (timeoutStep now timeout p i)
    exact ⟨htail'.trans htail, hcapacity'.trans hcapacity⟩

/-- The messages due, as many as they are, back in the ring. -/
structure TookBack (q : Queue μ) (now timeout : Int) (q' : Queue μ) (o : Out μ) : Prop where
  unacked : unacked q' = if counted (due now timeout (Core.unacked q)).length
    then live ((Core.unacked q).map (settle now timeout)) else (Core.unacked q).map (settle now timeout)
  ready : ready q' = (due now timeout (Core.unacked q)).reverse ++ Core.ready q
  tail : q'.tail = q.tail
  capacity : q'.capacity = q.capacity
  nextDeliveryTag : q'.nextDeliveryTag = q.nextDeliveryTag
  unackedCapacity : q'.unackedCapacity = q.unackedCapacity
  freed : o.freed = []

theorem pass_whole {q : Queue μ} (h : RingOk q) {now timeout : Int} (ht : 0 < timeout)
    (hroom : (due now timeout (unacked q)).length ≤ room q) :
    TookBack q now timeout (queueProcessTimeouts q now timeout).1 (queueProcessTimeouts q now timeout).2 := by
  have hp := passAt h now timeout q.unackedCount
  obtain ⟨htail, hcapacity⟩ := pass_frame now timeout (List.range q.unackedCount) ⟨q, 0, [], []⟩
  rw [queueProcessTimeouts, if_neg (by omega)]
  generalize (List.range q.unackedCount).foldl (timeoutStep now timeout) ⟨q, 0, [], []⟩ = p at hp htail hcapacity
  have hmarked : unacked p.q = (unacked q).map (settle now timeout) := by
    unfold unacked
    rw [hp.count]
    exact hp.done
  have hrequeued : p.requeued = due now timeout (unacked q) := hp.requeued.trans (List.take_of_length_le hroom)
  have hfreed : p.freed = [] := hp.freed.trans (List.drop_of_length_le hroom)
  have hready : ready p.q = (due now timeout (unacked q)).reverse ++ ready q := by rw [← hrequeued]; exact hp.ready
  have hcount : 0 < p.requeuedCount ↔ counted (due now timeout (unacked q)).length := by
    rw [hp.counter, hrequeued]
    exact Iff.rfl
  by_cases hc : counted (due now timeout (unacked q)).length
  · simp only [if_pos (hcount.mpr hc)]
    refine ⟨?_, hready, htail, hp.cap, hp.tag, hcapacity, hfreed⟩
    rw [unacked_cleanUp, hmarked, if_pos hc]
  · simp only [if_neg (mt hcount.mp hc)]
    refine ⟨?_, hready, htail, hp.cap, hp.tag, hcapacity, hfreed⟩
    rw [hmarked, if_neg hc]

theorem due_length (now timeout : Int) (l : List (DeliveryInfo μ)) :
    (due now timeout l).length = (l.filter (expired now timeout)).length := List.length_map _

/-- A queue of three slots with two messages delivered and one waiting. -/
def twoOut : Option (Queue Nat) :=
  ((queueCreate (some ⟨[113, 51], by decide⟩) 3 (fun _ => 0) (fun _ => ⟨0, 0, 0, .ready⟩) ⟨true, true, true⟩
    ⟨1, fun _ => false, [], []⟩).1).map fun q => (Hist.run q [.enqueue (some 1), .enqueue (some 2), .enqueue (some 3),
      .dequeue 0 true, .dequeue 0 true]).q

theorem twoOut_sound : ∃ q, twoOut = some q ∧ RingOk q ∧ (∀ info ∈ unacked q, info.status = .delivered) ∧
    ((unacked q).filter (expired 31 30)).length ≤ room q ∧ (msgs (unacked q) ++ ready q).Nodup :=
  ⟨_, rfl, ⟨by decide +kernel, by decide +kernel, by decide +kernel, by decide +kernel, by decide +kernel⟩,
    by decide +kernel, by decide +kernel, by decide +kernel⟩

/-! ## What is moved -/

/-- The entries due are gone, their messages are at the head in some order, and nothing else
    has changed. -/
structure MovesExactly (q : Queue μ) (now timeout : Int) (q' : Queue μ) (o : Out μ) : Prop where
  unacked : unacked q' = (Core.unacked q).filter fun info => !expired now timeout info
  ready : ∃ moved, moved.Perm (due now timeout (Core.unacked q)) ∧ ready q' = moved ++ Core.ready q
  tail : q'.tail = q.tail
  capacity : q'.capacity = q.capacity
  nextDeliveryTag : q'.nextDeliveryTag = q.nextDeliveryTag
  unackedCapacity : q'.unackedCapacity = q.unackedCapacity
  freed : o.freed = []

/-- `requeued_count > 0`, an `int`, after `n` increments. -/
theorem counted_wraps (n : Nat) : counted n ↔ 0 < n % 2 ^ 32 ∧ n % 2 ^ 32 < 2 ^ 31 := by
  have hsize : Int32.size = 2 ^ 32 := rfl
  unfold counted
  rw [Int32.lt_iff_toInt_lt, Int32.toInt_zero, Int32.toInt_ofNat', hsize, Int.bmod_def]
  push_cast
  split <;> omega

theorem moved_iff {q : Queue μ} {now timeout : Int} {q' : Queue μ} {o : Out μ} (h : TookBack q now timeout q' o)
    (hall : ∀ info ∈ unacked q, info.status = .delivered) :
    MovesExactly q now timeout q' o ↔
      due now timeout (unacked q) = [] ∨ counted (due now timeout (unacked q)).length := by
  have hrest : unacked q' = (unacked q).filter (fun info => !expired now timeout info) → MovesExactly q now timeout q' o :=
    fun hun => ⟨hun, ⟨_, List.reverse_perm _, h.ready⟩, h.tail, h.capacity, h.nextDeliveryTag, h.unackedCapacity, h.freed⟩
  by_cases hc : counted (due now timeout (unacked q)).length
  · refine iff_of_true (hrest ?_) (Or.inr hc)
    rw [h.unacked, if_pos hc, live_settle now timeout hall]
  · have hun := h.unacked
    rw [if_neg hc] at hun
    refine ⟨fun hm => Or.inl ?_, fun hd => hrest ?_⟩
    · -- as many entries as there were: none was due
      have hlen : ((unacked q).filter fun info => !expired now timeout info).length = (unacked q).length := by
        rw [← hm.unacked, hun, List.length_map]
      have hnone := List.length_filter_eq_length_iff.mp hlen
      rw [due, List.filter_eq_nil_iff.mpr fun info hinfo => by simpa using hnone info hinfo, List.map_nil]
    · have hd : due now timeout (unacked q) = [] := hd.resolve_right hc
      have hnone : ∀ info ∈ unacked q, expired now timeout info = false := by
        simpa [due, List.filter_eq_nil_iff] using hd
      rw [hun, List.filter_eq_self.mpr fun info hinfo => by simp [hnone info hinfo]]
      refine (List.map_congr_left fun info hinfo => ?_).trans (List.map_id _)
      simp [settle, hnone info hinfo]

theorem moves_exactly_iff {q : Queue μ} (h : RingOk q) (hall : ∀ info ∈ unacked q, info.status = .delivered)
    {now timeout : Int} (ht : 0 < timeout) (hroom : ((unacked q).filter (expired now timeout)).length ≤ room q) :
    MovesExactly q now timeout (queueProcessTimeouts q now timeout).1 (queueProcessTimeouts q now timeout).2 ↔
      (let n := ((unacked q).filter (expired now timeout)).length
       n = 0 ∨ (0 < n % 2 ^ 32 ∧ n % 2 ^ 32 < 2 ^ 31)) := by
  have hroom : (due now timeout (unacked q)).length ≤ room q := by rwa [due_length]
  rw [moved_iff (pass_whole h ht hroom) hall, ← List.length_eq_zero_iff, counted_wraps, due_length]

/-- 2^31 deliveries at time 0, the ring empty. -/
def manyDelivered : Queue Nat where
  name := none
  messages := fun _ => 0
  capacity := 2147483648
  size := 0
  head := 0
  tail := 0
  durable := 0
  unackedMessages := fun i => ⟨i, UInt64.ofNat (i + 1), 0, .delivered⟩
  unackedCapacity := 2 ^ 31
  unackedCount := 2 ^ 31
  nextDeliveryTag := 2147483649

theorem manyDelivered_ring : RingOk manyDelivered := ⟨by decide, by decide, by decide, by decide, by decide⟩

theorem manyDelivered_all : ∀ info ∈ unacked manyDelivered, info.status = .delivered ∧ info.deliveryTime = 0 := by
  intro info hinfo
  obtain ⟨i, -, rfl⟩ := Segment.mem_seg.mp hinfo
  exact ⟨rfl, rfl⟩

theorem manyDelivered_expired : (unacked manyDelivered).filter (expired 31 30) = unacked manyDelivered := by
  refine List.filter_eq_self.mpr fun info hinfo => ?_
  obtain ⟨hstatus, htime⟩ := manyDelivered_all info hinfo
  rw [expired, hstatus, htime]
  decide

theorem manyDelivered_length : (unacked manyDelivered).length = 2 ^ 31 := (List.length_map _).trans List.length_range

/-- All are put back, and all stay. -/
theorem a_count_that_wraps_keeps_the_entries :
    RingOk manyDelivered ∧ (∀ info ∈ unacked manyDelivered, info.status = .delivered) ∧
      ((unacked manyDelivered).filter (expired 31 30)).length ≤ room manyDelivered ∧
      ¬ MovesExactly manyDelivered 31 30 (queueProcessTimeouts manyDelivered 31 30).1 (queueProcessTimeouts manyDelivered 31 30).2 := by
  have hroom : ((unacked manyDelivered).filter (expired 31 30)).length ≤ room manyDelivered := by
    rw [manyDelivered_expired, manyDelivered_length]
    exact Nat.le_refl _
  have hall : ∀ info ∈ unacked manyDelivered, info.status = .delivered := fun info hinfo => (manyDelivered_all info hinfo).1
  refine ⟨manyDelivered_ring, hall, hroom, fun hm => ?_⟩
  have hdue : (due 31 30 (unacked manyDelivered)).length = 2 ^ 31 := by
    rw [due_length, manyDelivered_expired, manyDelivered_length]
  have hwhole : TookBack manyDelivered 31 30 _ _ := pass_whole manyDelivered_ring (by decide) (by rw [due_length]; exact hroom)
  rcases (moved_iff hwhole hall).mp hm with hnone | hcount
  · rw [hnone] at hdue
    exact absurd hdue (by decide)
  · rw [hdue, counted_wraps] at hcount
    omega

theorem moves_exactly_of_two : ∃ q, twoOut = some q ∧
    (MovesExactly q 31 30 (queueProcessTimeouts q 31 30).1 (queueProcessTimeouts q 31 30).2 ↔
      (let n := ((unacked q).filter (expired 31 30)).length
       n = 0 ∨ (0 < n % 2 ^ 32 ∧ n % 2 ^ 32 < 2 ^ 31))) := by
  obtain ⟨q, e, hring, hall, hroom, -⟩ := twoOut_sound
  exact ⟨q, e, moves_exactly_iff hring hall (by decide) hroom⟩

/-! ## In what order -/

/-- Of two deliveries due, the message of the one made first comes first in the ring. -/
def OrderKept (q : Queue μ) (now timeout : Int) : Prop :=
  ∀ a ∈ unacked q, ∀ b ∈ unacked q, expired now timeout a = true → expired now timeout b = true →
    a.deliveryTag < b.deliveryTag → Before (ready (queueProcessTimeouts q now timeout).1) a.message b.message

theorem kept_iff {q : Queue μ} {now timeout : Int} {q' : Queue μ} {o : Out μ} (h : TookBack q now timeout q' o)
    (hone : (msgs (unacked q) ++ ready q).Nodup) :
    (∀ a ∈ unacked q, ∀ b ∈ unacked q, expired now timeout a = true → expired now timeout b = true →
        a.deliveryTag < b.deliveryTag → Before (ready q') a.message b.message) ↔
      ((unacked q).filter (expired now timeout)).Pairwise fun a b => ¬ a.deliveryTag < b.deliveryTag := by
  have hdue : (due now timeout (unacked q) ++ ready q).Nodup :=
    hone.sublist (List.Sublist.append_right (List.filter_sublist.map _) _)
  rw [← reversed_keeps_iff (R := fun a b => a.deliveryTag < b.deliveryTag) hdue fun a => UInt64.lt_irrefl a.deliveryTag, h.ready]
  constructor
  · intro hkept a ha b hb hlt
    obtain ⟨ha, hea⟩ := List.mem_filter.mp ha
    obtain ⟨hb, heb⟩ := List.mem_filter.mp hb
    exact hkept a ha b hb hea heb hlt
  · intro hkept a ha b hb hea heb hlt
    exact hkept a (List.mem_filter.mpr ⟨ha, hea⟩) b (List.mem_filter.mpr ⟨hb, heb⟩) hlt

/-- Tags in order: the entries due are in order too. -/
theorem expired_in_order {q : Queue μ} (h : TagsInOrder q) (now timeout : Int) :
    ((unacked q).filter (expired now timeout)).Pairwise fun a b => a.deliveryTag < b.deliveryTag :=
  (List.pairwise_map.mp h.increasing).sublist List.filter_sublist

/-- Where the messages in a queue are different objects. -/
theorem order_kept_iff {q : Queue μ} (h : RingOk q) (hone : (msgs (unacked q) ++ ready q).Nodup) {now timeout : Int}
    (ht : 0 < timeout) (hroom : ((unacked q).filter (expired now timeout)).length ≤ room q) :
    (OrderKept q now timeout ↔
        ((unacked q).filter (expired now timeout)).Pairwise fun a b => ¬ a.deliveryTag < b.deliveryTag) ∧
      (TagsInOrder q → (OrderKept q now timeout ↔ ((unacked q).filter (expired now timeout)).length ≤ 1)) := by
  have hwhole := pass_whole h ht (by rwa [due_length])
  have hkept : OrderKept q now timeout ↔ _ := kept_iff hwhole hone
  exact ⟨hkept, fun htags => hkept.trans (pairwise_and_not (expired_in_order htags now timeout))⟩

theorem two_expired_are_swapped : ∃ q, twoOut = some q ∧ RingOk q ∧ (msgs (unacked q) ++ ready q).Nodup ∧
    ((unacked q).filter (expired 31 30)).length ≤ room q ∧ ready (queueProcessTimeouts q 31 30).1 = [2, 1, 3] ∧
      ¬ OrderKept q 31 30 := by
  obtain ⟨q, e, hring, -, hroom, hone⟩ := twoOut_sound
  have hready : twoOut.map (fun q => ready (queueProcessTimeouts q 31 30).1) = some [2, 1, 3] := by decide +kernel
  have hout : twoOut.map unacked = some [⟨1, 1, 0, .delivered⟩, ⟨2, 2, 0, .delivered⟩] := by decide +kernel
  rw [e, Option.map_some, Option.some.injEq] at hready hout
  refine ⟨q, e, hring, hone, hroom, hready, fun hkept => ?_⟩
  have hbefore := hkept ⟨1, 1, 0, .delivered⟩ (by rw [hout]; exact List.mem_cons_self) ⟨2, 2, 0, .delivered⟩
    (by rw [hout]; exact List.mem_cons_of_mem _ List.mem_cons_self) (by decide) (by decide) (by decide)
  rw [hready] at hbefore
  exact absurd hbefore (show ¬ [1, 2].Sublist [2, 1, 3] by decide)

theorem order_kept_iff_of_two : ∃ q, twoOut = some q ∧
    (OrderKept q 31 30 ↔ ((unacked q).filter (expired 31 30)).Pairwise fun a b => ¬ a.deliveryTag < b.deliveryTag) ∧
      (TagsInOrder q → (OrderKept q 31 30 ↔ ((unacked q).filter (expired 31 30)).length ≤ 1)) := by
  obtain ⟨q, e, hring, -, hroom, hone⟩ := twoOut_sound
  exact ⟨q, e, order_kept_iff hring hone (by decide) hroom⟩

end RabbitMQ.Core
