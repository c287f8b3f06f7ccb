/-
  RabbitMQ.Core.Deliveries — one `queue_dequeue`, `queue_ack` or `queue_reject`, on a whole
  queue.

  With every entry DELIVERED and no tag on two of them:
  - an ack or a reject takes out the entry with the tag it names and no other, and touches
    nothing besides; a reject that requeues also puts the message back in front
    (`settles_exactly_one`).
  - a dequeue appends one entry, under a tag no other entry has, or changes nothing at all
    when the full array could not be enlarged: `head + capacity - 1` takes back what
    `head + 1` advanced, at the wrap too (`tracks_or_changes_nothing`).
-/

import RabbitMQ.Core.Timeouts

namespace RabbitMQ.Core

open Lib

variable {μ : Type}

/-! ## Ack and reject -/

theorem Found.unique {l pre post pre' post' : List (DeliveryInfo μ)} {t : UInt64} {e e' : DeliveryInfo μ}
    (h : Found l t pre e post) (h' : Found l t pre' e' post') : pre = pre' ∧ e = e' ∧ post = post' := by
  obtain ⟨rfl, htag, hpre⟩ := h
  obtain ⟨hl, htag', hpre'⟩ := h'
  induction pre generalizing pre' with
  | nil =>
    cases pre' with
    | nil =>
      obtain ⟨rfl, rfl⟩ := List.cons.inj hl
      exact ⟨rfl, rfl, rfl⟩
    | cons x pre' =>
      obtain ⟨rfl, -⟩ := List.cons.inj hl
      exact absurd htag (hpre' e List.mem_cons_self)
  | cons x pre ih =>
    cases pre' with
    | nil =>
      obtain ⟨rfl, -⟩ := List.cons.inj hl
      exact absurd htag' (hpre x List.mem_cons_self)
    | cons x' pre' =>
      obtain ⟨rfl, htail⟩ := List.cons.inj hl
      obtain ⟨rfl, he, hpost⟩ := ih (fun y hy => hpre y (List.mem_cons_of_mem _ hy)) htail
        fun y hy => hpre' y (List.mem_cons_of_mem _ hy)
      exact ⟨rfl, he, hpost⟩

/-- An entry whose tag no other has is the one a search finds. -/
theorem found_of_nodup {l pre post : List (DeliveryInfo μ)} {e : DeliveryInfo μ} (hl : l = pre ++ e :: post)
    (hn : (tags l).Nodup) : Found l e.deliveryTag pre e post := by
  refine ⟨hl, rfl, fun x hx htag => ?_⟩
  rw [hl, tags, List.map_append, List.map_cons, List.nodup_middle, List.nodup_cons] at hn
  apply hn.1
  rw [← htag]
  exact List.mem_append_left _ (List.mem_map_of_mem hx)

/-- Nothing but the delivery array and its count is different. -/
def SameButDeliveries (q q' : Queue μ) : Prop :=
  q' = { q with unackedMessages := q'.unackedMessages, unackedCount := q'.unackedCount }

/-- The entry `e` is gone, and its message is freed. -/
structure Drops (q : Queue μ) (e : DeliveryInfo μ) (others : List (DeliveryInfo μ)) (r : Queue μ × Out μ) : Prop where
  out : r.2 = { val := 1, freed := [e.message] }
  unacked : unacked r.1 = others
  rest : SameButDeliveries q r.1

/-- The entry `e` is gone, and its message is back at the head. -/
structure PutsBack (q : Queue μ) (e : DeliveryInfo μ) (others : List (DeliveryInfo μ)) (r : Queue μ × Out μ) : Prop where
  out : r.2 = { val := 1, requeued := [e.message] }
  unacked : unacked r.1 = others
  ready : ready r.1 = e.message :: Core.ready q
  ring : RingOk r.1
  tail : r.1.tail = q.tail
  capacity : r.1.capacity = q.capacity
  nextDeliveryTag : r.1.nextDeliveryTag = q.nextDeliveryTag
  unackedCapacity : r.1.unackedCapacity = q.unackedCapacity

section Settling

variable {q : Queue μ} {e : DeliveryInfo μ} {others : List (DeliveryInfo μ)} {t : UInt64} {i : Nat}

/-- What the search and the clean-up come to for the entry under tag `t`. -/
theorem findTag_takes {pre post : List (DeliveryInfo μ)} (hall : ∀ x ∈ unacked q, x.status = .delivered)
    (hf : Found (unacked q) t pre e post) :
    ∃ i, findTag q t = some i ∧ q.unackedMessages i = e ∧ unacked (cleanUp (markAcknowledged q i)) = pre ++ post := by
  cases hfind : findTag q t with
  | none =>
    have hmem : e ∈ unacked q := by
      rw [hf.1]
      exact List.mem_append_right _ List.mem_cons_self
    exact absurd hf.2.1 (findTag_none hfind e hmem)
  | some i =>
    obtain ⟨pre', post', hf', hclean⟩ := findTag_some hfind
    obtain ⟨rfl, rfl, rfl⟩ := hf.unique hf'
    exact ⟨i, rfl, rfl, hclean.trans (live_found hf hall)⟩

theorem ack_drops (hfind : findTag q t = some i) (he : q.unackedMessages i = e)
    (hclean : unacked (cleanUp (markAcknowledged q i)) = others) : Drops q e others (queueAck q t) := by
  simp only [queueAck, hfind]
  exact ⟨by rw [he], hclean, rfl⟩

theorem reject_drops (hfind : findTag q t = some i) (he : q.unackedMessages i = e)
    (hclean : unacked (cleanUp (markAcknowledged q i)) = others) : Drops q e others (queueReject q t 0) := by
  simp only [queueReject, hfind, if_true]
  exact ⟨by rw [he], hclean, rfl⟩

theorem reject_puts_back (h : RingOk q) (hfind : findTag q t = some i) (he : q.unackedMessages i = e)
    (hclean : unacked (cleanUp (markAcknowledged q i)) = others) (hroom : q.size < q.capacity) {requeue : Int}
    (hrequeue : requeue ≠ 0) : PutsBack q e others (queueReject q t requeue) := by
  have hlt : q.size.toNat < q.capacity.toNat := UInt64.lt_iff_toNat_lt.mp hroom
  have hfull : ¬ (cleanUp (markAcknowledged q i)).size = (cleanUp (markAcknowledged q i)).capacity := by
    intro hsize
    have hsize' : q.size = q.capacity := hsize
    rw [hsize'] at hlt
    omega
  obtain ⟨hring, hready⟩ := pushHead_spec (ringOk_cleanUp (ringOk_mark h i)) e.message hlt
  simp only [queueReject, hfind, if_neg hrequeue, if_neg hfull, he]
  exact ⟨rfl, hclean, hready, hring, rfl, rfl, rfl, rfl⟩

/-- A tag that is not there. -/
theorem settles_nothing (ht : t ∉ tags (unacked q)) :
    queueAck q t = (q, {}) ∧ ∀ requeue, queueReject q t requeue = (q, {}) := by
  have hfind : findTag q t = none := by
    cases hfind : findTag q t with
    | none => rfl
    | some i =>
      obtain ⟨pre, post, hf, -⟩ := findTag_some hfind
      refine absurd (mem_tags.mpr ⟨q.unackedMessages i, ?_, hf.2.1⟩) ht
      rw [hf.1]
      exact List.mem_append_right _ List.mem_cons_self
  exact ⟨by rw [queueAck, hfind], fun requeue => by rw [queueReject, hfind]⟩

end Settling

theorem settles_exactly_one {q : Queue μ} (h : RingOk q) (hall : ∀ x ∈ unacked q, x.status = .delivered)
    (hn : (tags (unacked q)).Nodup) (t : UInt64) :
    (∀ pre e post, unacked q = pre ++ e :: post → e.deliveryTag = t →
      Drops q e (pre ++ post) (queueAck q t) ∧ Drops q e (pre ++ post) (queueReject q t 0) ∧
        (q.size < q.capacity → ∀ requeue, requeue ≠ 0 → PutsBack q e (pre ++ post) (queueReject q t requeue))) ∧
      (t ∉ tags (unacked q) → queueAck q t = (q, {}) ∧ ∀ requeue, queueReject q t requeue = (q, {})) := by
  refine ⟨fun pre e post hl htag => ?_, settles_nothing⟩
  subst htag
  obtain ⟨i, hfind, he, hclean⟩ := findTag_takes hall (found_of_nodup hl hn)
  exact ⟨ack_drops hfind he hclean, reject_drops hfind he hclean,
    fun hroom requeue hrequeue => reject_puts_back h hfind he hclean hroom hrequeue⟩

/-- The first of two deliveries acked. -/
theorem settles_exactly_one_of_two : ∃ q, twoOut = some q ∧
    Drops q ⟨1, 1, 0, .delivered⟩ ([] ++ [⟨2, 2, 0, .delivered⟩]) (queueAck q 1) := by
  obtain ⟨q, hq, hring, hall, -⟩ := twoOut_sound
  have hentries : twoOut.map unacked = some ([] ++ (⟨1, 1, 0, .delivered⟩ : DeliveryInfo Nat) :: [⟨2, 2, 0, .delivered⟩]) := by
    decide +kernel
  rw [hq] at hentries
  have hl := Option.some.inj hentries
  have hn : (tags (unacked q)).Nodup := by
    rw [hl]
    decide
  exact ⟨q, hq, ((settles_exactly_one hring hall hn 1).1 [] _ _ hl rfl).1⟩

/-! ## Dequeue -/

/-- The first ready message is the last entry, under a tag of its own. `once`: where no
    message is in two places, it is in no other entry. `enlarged`: the size of the array in
    bytes does not wrap. -/
structure Tracks (q : Queue μ) (now : Int) (tag : UInt64) (m : μ) (q' : Queue μ) : Prop where
  given : tag = q.nextDeliveryTag
  unacked : unacked q' = Core.unacked q ++ [⟨m, tag, now, .delivered⟩]
  only : ∀ x ∈ Core.unacked q, x.deliveryTag ≠ tag
  once : (ready q ++ msgs (Core.unacked q)).Nodup → m ∉ msgs (Core.unacked q)
  ready : ready q = m :: Core.ready q'
  ring : RingOk q'
  nextDeliveryTag : q'.nextDeliveryTag = tag + 1
  fits : q'.unackedCount ≤ q'.unackedCapacity
  enlarged : (UInt64.ofNat q'.unackedCapacity * 32).toNat = q'.unackedCapacity * 32

section Dequeue

variable {q : Queue μ} {realloc : Bool}

theorem takeHead_array (now : Int) (hr : ¬ Refused q realloc) :
    (takeHead q now realloc).1 ≠ none ∧
      (takeHead q now realloc).2.unackedCount = q.unackedCount + 1 ∧
      (takeHead q now realloc).2.unackedCapacity =
        if q.unackedCapacity ≤ q.unackedCount then q.unackedCapacity * 2 else q.unackedCapacity := by
  have hr' : ¬ (q.unackedCapacity ≤ q.unackedCount ∧ realloc = false) := hr
  simp only [takeHead, addToUnacked, if_neg hr']
  by_cases hfull : q.unackedCapacity ≤ q.unackedCount
  · simp only [if_pos hfull]
    exact ⟨Option.some_ne_none _, trivial, trivial⟩
  · simp only [if_neg hfull]
    exact ⟨Option.some_ne_none _, trivial, trivial⟩

theorem takeHead_tracks (now : Int) (h : RingOk q) (hne : q.size ≠ 0) (hr : ¬ Refused q realloc)
    (hcount : q.unackedCount ≤ q.unackedCapacity) (hpos : 0 < q.unackedCapacity) (hlt : q.unackedCapacity < 2 ^ 57)
    (htags : ∀ x ∈ unacked q, x.deliveryTag < q.nextDeliveryTag) :
    ∃ tag m q', takeHead q now realloc = (some (tag, m), q') ∧ Tracks q now tag m q' := by
  obtain ⟨hsome, hcount', hcapacity'⟩ := takeHead_array now hr
  rcases takeHead_spec h hne now realloc with ⟨-, e⟩ | ⟨m, q', e, hring, hready, hunacked, -, htag⟩
  · rw [e] at hsome
    exact absurd rfl hsome
  rw [e] at hcount' hcapacity'
  simp only at hcount' hcapacity'
  refine ⟨_, m, q', e, rfl, hunacked, fun x hx he => ?_, fun hn hm => ?_, hready, hring, htag, ?_, ?_⟩
  · have hbelow := UInt64.lt_iff_toNat_lt.mp (htags x hx)
    rw [he] at hbelow
    omega
  · rw [hready] at hn
    exact (List.nodup_append.mp hn).2.2 m List.mem_cons_self m hm rfl
  · rw [hcount', hcapacity']
    split <;> omega
  · have hsmall : q'.unackedCapacity < 2 ^ 58 := by
      rw [hcapacity']
      split <;> omega
    have hbytes : (32 : UInt64).toNat = 32 := rfl
    rw [UInt64.toNat_mul, UInt64.toNat_ofNat_of_lt' (by show _ < 2 ^ 64; omega), hbytes]
    omega

end Dequeue

/-- `queue_dequeue` does not block: there is a message. -/
theorem tracks_or_changes_nothing {q : Queue μ} (h : RingOk q) (hcount : q.unackedCount ≤ q.unackedCapacity)
    (hpos : 0 < q.unackedCapacity) (hlt : q.unackedCapacity < 2 ^ 57)
    (htags : ∀ x ∈ unacked q, x.deliveryTag < q.nextDeliveryTag) (hne : q.size ≠ 0) (now : Int) (realloc : Bool) :
    (Refused q realloc → queueTryDequeue q now realloc = (none, q) ∧ queueDequeue q now realloc = some (none, q)) ∧
      (¬ Refused q realloc → ∃ tag m q', queueTryDequeue q now realloc = (some (tag, m), q') ∧
        queueDequeue q now realloc = some (some (tag, m), q') ∧ Tracks q now tag m q') := by
  rw [queueTryDequeue, queueDequeue, if_neg hne, if_neg hne]
  constructor
  · intro hr
    rw [takeHead_refused now h hr]
    exact ⟨rfl, rfl⟩
  · intro hr
    obtain ⟨tag, m, q', e, htracks⟩ := takeHead_tracks now h hne hr hcount hpos hlt htags
    rw [e]
    exact ⟨tag, m, q', rfl, rfl, htracks⟩

/-- The third message of three, the first two delivered: with room for a hundred outstanding,
    and with room for no more than the two and no memory. -/
theorem tracks_the_third : ∃ q, twoOut = some q ∧
    (∃ tag m q', queueTryDequeue q 5 true = (some (tag, m), q') ∧ queueDequeue q 5 true = some (some (tag, m), q') ∧
      Tracks q 5 tag m q') ∧
    queueTryDequeue { q with unackedCapacity := 2 } 5 false = (none, { q with unackedCapacity := 2 }) ∧
    queueDequeue { q with unackedCapacity := 2 } 5 false = some (none, { q with unackedCapacity := 2 }) := by
  obtain ⟨q, hq, hring, -⟩ := twoOut_sound
  have harray : twoOut.map (fun q => (q.unackedCount, q.unackedCapacity, q.size, q.nextDeliveryTag, tags (unacked q))) =
      some (2, 100, 1, 3, [1, 2]) := by decide +kernel
  rw [hq] at harray
  simp only [Option.map_some, Option.some.injEq, Prod.mk.injEq] at harray
  obtain ⟨hcount, hcapacity, hsize, hnext, htags⟩ := harray
  have hbelow : ∀ x ∈ unacked q, x.deliveryTag < q.nextDeliveryTag := by
    intro x hx
    have hmem : x.deliveryTag ∈ tags (unacked q) := mem_tags.mpr ⟨x, hx, rfl⟩
    rw [htags] at hmem
    rcases List.mem_cons.mp hmem with he | hmem
    · rw [he, hnext]
      decide
    · rw [List.mem_singleton.mp hmem, hnext]
      decide
  have hsome : q.size ≠ 0 := by
    rw [hsize]
    decide
  refine ⟨q, hq, ?_, ?_⟩
  · exact (tracks_or_changes_nothing hring (by omega) (by omega) (by omega) hbelow hsome 5 true).2 fun hr => Bool.noConfusion hr.2
  · have hfull : RingOk { q with unackedCapacity := 2 } := ⟨hring.capPos, hring.capLt, hring.headLt, hring.sizeLe, hring.tailEq⟩
    have hbound : 2 < 2 ^ 57 := by decide
    exact (tracks_or_changes_nothing hfull hcount.le Nat.two_pos hbound hbelow hsome 5 false).1 ⟨hcount.ge, rfl⟩

end RabbitMQ.Core
