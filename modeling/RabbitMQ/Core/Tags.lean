/-
  RabbitMQ.Core.Tags — delivery tags.

  Tags are handed out as 1, 2, 3, … An entry keeps the tag it was made with; the purges slide
  entries down over others and a requeue takes its entry out. So the tags in the array are a
  subsequence of those handed out (`Numbered`), which is all that is needed: it holds
  whatever the ring is like, on every queue and for every call (`call_tags`).
-/

import RabbitMQ.Core.QueueRuns

namespace RabbitMQ.Core

open Lib

variable {μ : Type}

/-! ## What a call does to the tags -/

/-- The tags in the array are some of those before, in order. -/
structure KeepsTags (q q' : Queue μ) : Prop where
  tags : (tags (unacked q')).Sublist (tags (unacked q))
  next : q'.nextDeliveryTag = q.nextDeliveryTag
  capacity : q'.unackedCapacity = q.unackedCapacity

/-- The next tag is handed out and put at the end; a full array is doubled first. -/
structure GivesTag (q q' : Queue μ) : Prop where
  tags : tags (unacked q') = tags (unacked q) ++ [q.nextDeliveryTag]
  next : q'.nextDeliveryTag = q.nextDeliveryTag + 1
  capacity : q'.unackedCapacity = if q.unackedCapacity ≤ q.unackedCount then q.unackedCapacity * 2 else q.unackedCapacity

theorem KeepsTags.refl (q : Queue μ) : KeepsTags q q := ⟨List.Sublist.refl _, rfl, rfl⟩

theorem KeepsTags.trans {q q' q'' : Queue μ} (h : KeepsTags q q') (h' : KeepsTags q' q'') : KeepsTags q q'' :=
  ⟨h'.tags.trans h.tags, h'.next.trans h.next, h'.capacity.trans h.capacity⟩

theorem tags_length (q : Queue μ) : (tags (unacked q)).length = q.unackedCount := by
  simp [tags, unacked, Segment.seg]

theorem mark_tags (q : Queue μ) (i : Nat) : KeepsTags q (markAcknowledged q i) := by
  refine ⟨?_, rfl, rfl⟩
  have hsame : tags (unacked (markAcknowledged q i)) = tags (unacked q) := by
    simp only [tags, unacked, Segment.seg, markAcknowledged, List.map_map]
    refine List.map_congr_left fun j _ => ?_
    by_cases hj : j = i
    · subst hj
      simp only [Function.comp_apply, Function.update_self]
    · simp only [Function.comp_apply, Function.update_of_ne hj]
  rw [hsame]

theorem cleanUp_tags (q : Queue μ) : KeepsTags q (cleanUp q) := by
  refine ⟨?_, rfl, rfl⟩
  rw [unacked_cleanUp]
  exact List.filter_sublist.map _

theorem settled_tags (q : Queue μ) (i : Nat) : KeepsTags q (cleanUp (markAcknowledged q i)) :=
  (mark_tags q i).trans (cleanUp_tags _)

theorem ack_tags (q : Queue μ) (tag : UInt64) : KeepsTags q (queueAck q tag).1 ∧ (queueAck q tag).2.got = none := by
  unfold queueAck
  cases findTag q tag with
  | none => exact ⟨KeepsTags.refl q, rfl⟩
  | some i => exact ⟨settled_tags q i, rfl⟩

theorem reject_tags (q : Queue μ) (tag : UInt64) (requeue : Int) :
    KeepsTags q (queueReject q tag requeue).1 ∧ (queueReject q tag requeue).2.got = none := by
  unfold queueReject
  cases findTag q tag with
  | none => exact ⟨KeepsTags.refl q, rfl⟩
  | some i =>
    have hsettled := settled_tags q i
    dsimp only
    split
    · exact ⟨hsettled, rfl⟩
    split
    · exact ⟨hsettled, rfl⟩
    · exact ⟨⟨hsettled.tags, hsettled.next, hsettled.capacity⟩, rfl⟩

theorem timeoutStep_tags (now timeout : Int) (p : Pass μ) (i : Nat) : KeepsTags p.q (timeoutStep now timeout p i).q := by
  unfold timeoutStep
  split
  · have hmark := mark_tags p.q i
    dsimp only
    split
    · exact ⟨hmark.tags, hmark.next, hmark.capacity⟩
    · exact hmark
  · exact KeepsTags.refl p.q

theorem timeouts_tags (q : Queue μ) (now timeout : Int) :
    KeepsTags q (queueProcessTimeouts q now timeout).1 ∧ (queueProcessTimeouts q now timeout).2.got = none := by
  have hpass : ∀ (cells : List Nat) (p : Pass μ), KeepsTags p.q (cells.foldl (timeoutStep now timeout) p).q := by
    intro cells
    induction cells with
    | nil => exact fun p => KeepsTags.refl p.q
    | cons i cells ih => exact fun p => (timeoutStep_tags now timeout p i).trans (ih _)
  unfold queueProcessTimeouts
  split
  · exact ⟨KeepsTags.refl q, rfl⟩
  · dsimp only
    refine ⟨?_, rfl⟩
    split
    · exact (hpass _ ⟨q, 0, [], []⟩).trans (cleanUp_tags _)
    · exact hpass _ ⟨q, 0, [], []⟩

theorem takeHead_tags (q : Queue μ) (now : Int) (realloc : Bool) :
    (KeepsTags q (takeHead q now realloc).2 ∧ (takeHead q now realloc).1 = none) ∨
      (GivesTag q (takeHead q now realloc).2 ∧ (takeHead q now realloc).1.map (·.1) = some q.nextDeliveryTag) := by
  by_cases hfull : q.unackedCapacity ≤ q.unackedCount ∧ realloc = false
  · left
    simp only [takeHead, addToUnacked, hfull, and_self, if_true]
    exact ⟨⟨List.Sublist.refl _, rfl, rfl⟩, trivial⟩
  · right
    simp only [takeHead, addToUnacked, if_neg hfull]
    have hpush := Segment.seg_push q.unackedMessages q.unackedCount
      ⟨q.messages q.head.toNat, q.nextDeliveryTag, now, .delivered⟩
    have htags : tags (Segment.seg _ _) = _ := congrArg tags hpush
    rw [tags, tags, List.map_append] at htags
    by_cases hgrow : q.unackedCapacity ≤ q.unackedCount
    · simp only [if_pos hgrow]
      exact ⟨⟨htags, rfl, (if_pos hgrow).symm⟩, rfl⟩
    · simp only [if_neg hgrow]
      exact ⟨⟨htags, rfl, (if_neg hgrow).symm⟩, rfl⟩

theorem enqueue_tags (q : Queue μ) (message : Option μ) :
    KeepsTags q (call q (.tryEnqueue message)).1 ∧ (call q (.tryEnqueue message)).2.got = none := by
  cases message with
  | none => exact ⟨KeepsTags.refl q, rfl⟩
  | some m =>
    simp only [call, queueTryEnqueue]
    split
    · exact ⟨KeepsTags.refl q, trivial⟩
    · exact ⟨⟨List.Sublist.refl _, rfl, rfl⟩, trivial⟩

theorem dequeue_tags (q : Queue μ) (now : Int) (realloc : Bool) :
    (KeepsTags q (call q (.tryDequeue now realloc)).1 ∧ (call q (.tryDequeue now realloc)).2.got = none) ∨
      (GivesTag q (call q (.tryDequeue now realloc)).1 ∧
        (call q (.tryDequeue now realloc)).2.got.map (·.1) = some q.nextDeliveryTag) := by
  simp only [call, queueTryDequeue]
  by_cases hempty : q.size = 0
  · rw [if_pos hempty]
    exact Or.inl ⟨KeepsTags.refl q, rfl⟩
  · rw [if_neg hempty]
    exact takeHead_tags q now realloc

/-- Whatever the state of the ring. -/
theorem call_tags (q : Queue μ) (c : Call μ) :
    (KeepsTags q (call q c).1 ∧ (call q c).2.got = none) ∨
      (GivesTag q (call q c).1 ∧ (call q c).2.got.map (·.1) = some q.nextDeliveryTag) := by
  cases c with
  | enqueue message =>
    rw [call_enqueue]
    exact Or.inl (enqueue_tags q message)
  | tryEnqueue message => exact Or.inl (enqueue_tags q message)
  | dequeue now realloc =>
    rw [call_dequeue]
    exact dequeue_tags q now realloc
  | tryDequeue now realloc => exact dequeue_tags q now realloc
  | ack tag => exact Or.inl (ack_tags q tag)
  | reject tag requeue => exact Or.inl (reject_tags q tag requeue)
  | processTimeouts now timeout => exact Or.inl (timeouts_tags q now timeout)
  | size => exact Or.inl ⟨KeepsTags.refl q, rfl⟩
  | setDurable durable => exact Or.inl ⟨⟨List.Sublist.refl _, rfl, rfl⟩, rfl⟩

/-! ## Runs -/

/-- The tags of the successful dequeues of a run, in order. -/
def handedOut (q : Queue μ) : List (Call μ) → List UInt64
  | [] => []
  | c :: cs => ((call q c).2.got.map (·.1)).toList ++ handedOut (call q c).1 cs

/-- 1, 2, 3, … -/
def firstTags (n : Nat) : List UInt64 := (List.range n).map fun i => UInt64.ofNat (i + 1)

/-- With `n` deliveries behind. -/
structure Numbered (q : Queue μ) (n : Nat) : Prop where
  tags : (tags (unacked q)).Sublist (firstTags n)
  next : q.nextDeliveryTag = UInt64.ofNat (n + 1)
  count : q.unackedCount ≤ q.unackedCapacity
  positive : 0 < q.unackedCapacity
  /-- The array is never larger than twice what was delivered. -/
  capacity : q.unackedCapacity ≤ max DEFAULT_UNACKED_CAPACITY (2 * n)

theorem firstTags_succ (n : Nat) : firstTags (n + 1) = firstTags n ++ [UInt64.ofNat (n + 1)] := by
  simp [firstTags, List.range_succ]

theorem firstTags_length (n : Nat) : (firstTags n).length = n := by simp [firstTags]

theorem firstTags_increasing {n : Nat} (hn : n < 2 ^ 56) : (firstTags n).Pairwise (· < ·) := by
  rw [firstTags, List.pairwise_map]
  refine List.pairwise_lt_range.imp_of_mem fun {i j} hi hj hlt => ?_
  have hsize : UInt64.size = 2 ^ 64 := rfl
  have hin := List.mem_range.mp hi
  have hjn := List.mem_range.mp hj
  rw [UInt64.lt_iff_toNat_lt, UInt64.toNat_ofNat_of_lt' (by omega), UInt64.toNat_ofNat_of_lt' (by omega)]
  omega

theorem mem_firstTags {n : Nat} (hn : n < 2 ^ 56) {t : UInt64} (ht : t ∈ firstTags n) : 1 ≤ t.toNat ∧ t.toNat ≤ n := by
  obtain ⟨i, hi, rfl⟩ := List.mem_map.mp ht
  have hsize : UInt64.size = 2 ^ 64 := rfl
  have hin := List.mem_range.mp hi
  rw [UInt64.toNat_ofNat_of_lt' (by omega)]
  omega

theorem numbered_keeps {q q' : Queue μ} {n : Nat} (h : Numbered q n) (hk : KeepsTags q q') : Numbered q' n := by
  have hcount := hk.tags.length_le
  rw [tags_length, tags_length] at hcount
  refine ⟨hk.tags.trans h.tags, hk.next.trans h.next, ?_, ?_, ?_⟩
  · rw [hk.capacity]
    exact Nat.le_trans hcount h.count
  · rw [hk.capacity]
    exact h.positive
  · rw [hk.capacity]
    exact h.capacity

theorem numbered_gives {q q' : Queue μ} {n : Nat} (h : Numbered q n) (hg : GivesTag q q') : Numbered q' (n + 1) := by
  have hcount := congrArg List.length hg.tags
  rw [tags_length, List.length_append, tags_length, List.length_singleton] at hcount
  have hle := h.tags.length_le
  rw [tags_length, firstTags_length] at hle
  have hcapacity := hg.capacity
  have hbefore := h.count
  have hpos := h.positive
  have hbound := h.capacity
  refine ⟨?_, ?_, ?_, ?_, ?_⟩
  · rw [hg.tags, firstTags_succ, h.next]
    exact h.tags.append_right _
  · rw [hg.next, h.next]
    exact (UInt64.ofNat_add (n + 1) 1).symm
  all_goals
    split at hcapacity
    all_goals omega

theorem numbered_run {h : Hist μ} {n : Nat} (hn : Numbered h.q n) (calls : List (Call μ)) :
    Numbered (Run.run Hist.step h calls).q (n + (handedOut h.q calls).length) ∧
      firstTags n ++ handedOut h.q calls = firstTags (n + (handedOut h.q calls).length) := by
  induction calls generalizing h n with
  | nil => exact ⟨hn, List.append_nil _⟩
  | cons c calls ih =>
    rcases call_tags h.q c with ⟨hk, hgot⟩ | ⟨hg, hgot⟩
    · obtain ⟨hnext, hgiven⟩ := ih (h := h.step c) (numbered_keeps hn hk)
      have hnone : handedOut h.q (c :: calls) = handedOut (h.step c).q calls := by
        rw [handedOut, hgot]
        rfl
      rw [hnone]
      exact ⟨hnext, hgiven⟩
    · obtain ⟨hnext, hgiven⟩ := ih (h := h.step c) (numbered_gives hn hg)
      have hsome : handedOut h.q (c :: calls) = UInt64.ofNat (n + 1) :: handedOut (h.step c).q calls := by
        rw [handedOut, hgot, hn.next]
        rfl
      have hlen : n + (handedOut h.q (c :: calls)).length = n + 1 + (handedOut (h.step c).q calls).length := by
        rw [hsome, List.length_cons]
        omega
      rw [hlen]
      refine ⟨hnext, ?_⟩
      rw [hsome, ← hgiven, firstTags_succ, List.append_assoc, List.singleton_append]

/-- The array's tags go up, from 1 to the last one handed out. -/
structure TagsInOrder (q : Queue μ) : Prop where
  increasing : (tags (unacked q)).Pairwise (· < ·)
  range : ∀ t ∈ tags (unacked q), 1 ≤ t.toNat ∧ t.toNat ≤ q.nextDeliveryTag.toNat - 1
  count : q.unackedCount ≤ q.unackedCapacity

theorem numbered_in_order {q : Queue μ} {n : Nat} (h : Numbered q n) (hn : n < 2 ^ 56) : TagsInOrder q := by
  refine ⟨(firstTags_increasing hn).sublist h.tags, fun t ht => ?_, h.count⟩
  have hsize : UInt64.size = 2 ^ 64 := rfl
  rw [h.next, UInt64.toNat_ofNat_of_lt' (by omega), Nat.add_sub_cancel]
  exact mem_firstTags hn (h.tags.subset ht)

theorem tags_identify_deliveries {name : Option CString} {capacity : UInt64} {garbage : Nat → μ} {info : Nat → DeliveryInfo μ}
    {sync : SyncInit} {h : Heap} {q : Queue μ} (hq : (queueCreate name capacity garbage info sync h).1 = some q)
    (calls : List (Call μ)) (hfew : (handedOut q calls).length < 2 ^ 56) :
    TagsInOrder (Hist.run q calls).q ∧ (handedOut q calls).Nodup := by
  have hcreated := created hq
  have hcount := hcreated.unackedCount
  have hnext := hcreated.nextDeliveryTag
  have hcapacity := hcreated.unackedCapacity
  have hstart : Numbered (Hist.start q).q 0 := by
    refine ⟨?_, hnext, ?_, ?_, ?_⟩
    · show (tags (unacked q)).Sublist _
      rw [unacked, hcount]
      exact List.Sublist.refl _
    · show q.unackedCount ≤ q.unackedCapacity
      rw [hcount]
      exact Nat.zero_le _
    · show 0 < q.unackedCapacity
      rw [hcapacity]
      decide
    · show q.unackedCapacity ≤ _
      rw [hcapacity]
      exact Nat.le_max_left _ _
  obtain ⟨hrun, hgiven⟩ := numbered_run hstart calls
  rw [Nat.zero_add] at hrun hgiven
  refine ⟨numbered_in_order hrun hfew, ?_⟩
  have hall : handedOut q calls = firstTags (handedOut q calls).length := hgiven
  rw [hall]
  exact (firstTags_increasing hfew).imp fun hlt => UInt64.ne_of_lt hlt

/-- One slot: a message is delivered, put back and delivered again. -/
theorem tags_identify_a_redelivery : ∃ q, oneSlot = some q ∧
    TagsInOrder (Hist.run q [.enqueue (some 7), .dequeue 0 true, .reject 1 1, .tryDequeue 0 true]).q ∧
      (handedOut q [.enqueue (some 7), .dequeue 0 true, .reject 1 1, .tryDequeue 0 true]).Nodup :=
  ⟨_, rfl, tags_identify_deliveries (show oneSlot = some _ from rfl) _ (by decide)⟩

end RabbitMQ.Core
