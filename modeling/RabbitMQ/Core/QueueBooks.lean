/-
  RabbitMQ.Core.QueueBooks — what becomes of the messages a queue accepted.

  (1) Messages are conserved (`books_step`): every accepted message is ready, in delivery,
      or freed, as long as no timeout pass meets a full ring with a delivery due. The purge
      after a pass runs only when the pass counted a requeue, so a pass into a full ring
      frees a message and leaves its entry behind, for the next ack to free again
      (`a_pass_into_a_full_ring_frees_twice`). Where every pass is swept, each message is
      freed once (`freed_once`).
  (2) Under that condition, and while the next tag is not still on an entry, ack and reject
      accept a tag exactly while it is outstanding (`settled_once`).
  (3) A requeue into a full ring frees the message (`a_full_ring_loses_the_requeued`); where
      requeues find a slot nothing is lost (`no_message_lost`).
-/

import Mathlib.Data.List.Nodup
import RabbitMQ.Core.QueueRuns

namespace RabbitMQ.Core

open Lib

variable {μ : Type}

/-! ## (1) Conservation -/

def msgs (l : List (DeliveryInfo μ)) : List μ := l.map (·.message)

def AllDelivered (s : Store μ) : Prop := ∀ x ∈ s.unacked, x.status = .delivered

/-- A timeout pass purges what it settles: nothing is due, or the first message due finds
    a slot and `requeued_count` does not overflow. -/
def Swept (s : Store μ) : Call μ → Prop
  | .processTimeouts now timeout =>
    0 < timeout → due now timeout s.unacked = [] ∨ (s.ready.length < s.capacity ∧
      ((due now timeout s.unacked).take (s.capacity - s.ready.length)).length < 2 ^ 31)
  | _ => True

instance (s : Store μ) (c : Call μ) [DecidableEq μ] : Decidable (Swept s c) := by
  cases c <;> unfold Swept <;> infer_instance

theorem counted_iff {n : Nat} (h : n < 2 ^ 31) : counted n ↔ 0 < n :=
  Int32.ofNat_lt_iff_lt (by decide) h

theorem live_of_delivered {l : List (DeliveryInfo μ)} (h : ∀ x ∈ l, x.status = .delivered) : live l = l := by
  apply List.filter_eq_self.mpr
  intro x hx
  simp [isLive, h x hx]

theorem live_found {l pre post : List (DeliveryInfo μ)} {t : UInt64} {e : DeliveryInfo μ} (hf : Found l t pre e post)
    (h : ∀ x ∈ l, x.status = .delivered) : live (pre ++ post) = pre ++ post := by
  refine live_of_delivered fun x hx => h x ?_
  rw [hf.1]
  rcases List.mem_append.mp hx with hx | hx
  · exact List.mem_append_left _ hx
  · exact List.mem_append_right _ (List.mem_cons_of_mem _ hx)

theorem live_settle {l : List (DeliveryInfo μ)} (now timeout : Int) (h : ∀ x ∈ l, x.status = .delivered) :
    live (l.map (settle now timeout)) = l.filter fun x => !expired now timeout x := by
  induction l with
  | nil => rfl
  | cons x l ih =>
    have hx := h x (List.mem_cons_self ..)
    have ih := ih fun y hy => h y (List.mem_cons_of_mem _ hy)
    unfold live at ih ⊢
    rw [List.map_cons]
    by_cases he : expired now timeout x = true
    · rw [List.filter_cons_of_neg (by simp [isLive, settle, he]), List.filter_cons_of_neg (by simp [he]), ih]
    · rw [List.filter_cons_of_pos (by simp [isLive, settle, he, hx]), List.filter_cons_of_pos (by simp [he]), ih]
      simp [settle, he]

/-- A swept pass leaves exactly the entries that were not due. -/
theorem swept_unacked {s : Store μ} {now timeout : Int} (ht : 0 < timeout) (hall : AllDelivered s)
    (hs : Swept s (.processTimeouts now timeout)) :
    (if counted ((due now timeout s.unacked).take (s.capacity - s.ready.length)).length
      then live (s.unacked.map (settle now timeout)) else s.unacked.map (settle now timeout)) =
    s.unacked.filter fun x => !expired now timeout x := by
  by_cases hd : due now timeout s.unacked = []
  · have hnone : ∀ x ∈ s.unacked, expired now timeout x = false := by
      simpa [due, List.filter_eq_nil_iff] using hd
    have hmap : s.unacked.map (settle now timeout) = s.unacked := by
      refine (List.map_congr_left ?_).trans (List.map_id _)
      intro x hx
      simp [settle, hnone x hx]
    have hcount : ¬ counted 0 := by decide
    rw [hd, List.take_nil, List.length_nil, if_neg hcount, hmap]
    exact (List.filter_eq_self.mpr fun x hx => by simp [hnone x hx]).symm
  · obtain ⟨hroom, hlt⟩ := (hs ht).resolve_left hd
    have hpos : 0 < (due now timeout s.unacked).length := List.length_pos_iff.mpr hd
    rw [if_pos ((counted_iff hlt).mpr (by rw [List.length_take]; omega)), live_settle now timeout hall]

theorem found_find {l pre post : List (DeliveryInfo μ)} {t : UInt64} {e : DeliveryInfo μ} (hf : Found l t pre e post) :
    l.find? (·.deliveryTag == t) = some e := by
  rw [hf.1, List.find?_append, List.find?_eq_none.mpr fun x hx => by simpa using hf.2.2 x hx]
  simp [hf.2.1]

theorem allDelivered_step {s s' : Store μ} {c : Call μ} {o : Out μ} (hall : AllDelivered s) (hs : Swept s c)
    (h : Does s c s' o) : AllDelivered s' := by
  have hsub : ∀ {t : UInt64} {pre post : List (DeliveryInfo μ)} {e : DeliveryInfo μ},
      Found s.unacked t pre e post → ∀ x ∈ live (pre ++ post), x.status = .delivered := by
    intro t pre post e hf x hx
    rw [live_found hf hall] at hx
    refine hall x ?_
    rw [hf.1]
    rcases List.mem_append.mp hx with hx | hx
    · exact List.mem_append_left _ hx
    · exact List.mem_append_right _ (List.mem_cons_of_mem _ hx)
  cases h with
  | nothing => exact hall
  | push => exact hall
  | deliver m rest now =>
    intro x hx
    rcases List.mem_append.mp hx with hx | hx
    · exact hall x hx
    · rw [List.mem_singleton.mp hx]
  | ack pre e post hf => exact hsub hf
  | discard pre e post hf => exact hsub hf
  | requeue pre e post hf => exact hsub hf
  | overflow pre e post hf => exact hsub hf
  | pass d room ht hd hroom =>
    subst hd hroom
    intro x hx
    simp only [swept_unacked ht hall hs] at hx
    exact hall x (List.mem_of_mem_filter hx)

theorem accepted_after (g : Ghost μ) (s : Store μ) (c : Call μ) (o : Out μ) :
    (g.after s c o).accepted = g.accepted ++ Deque.pushed (opsOf c o) := by
  simp [Ghost.accepted, Ghost.after]

theorem pushed_returned (l : List μ) : Deque.pushed (l.map Deque.Op.pushFront) = [] := by
  simp [Deque.pushed, List.filterMap_map]

section Books

variable [DecidableEq μ]

/-- Every accepted message is ready, in delivery or freed, as often as it was accepted;
    and every entry is a delivery that is not settled. -/
structure Books (s : Store μ) (g : Ghost μ) : Prop where
  all : AllDelivered s
  count : ∀ m, g.accepted.count m = s.ready.count m + (msgs s.unacked).count m + g.freed.count m

theorem count_found {l pre post : List (DeliveryInfo μ)} {t : UInt64} {e : DeliveryInfo μ} (hf : Found l t pre e post)
    (m : μ) : (msgs l).count m = (msgs (pre ++ post)).count m + [e.message].count m := by
  rw [hf.1]
  simp only [msgs, List.map_append, List.map_cons, List.count_append, List.count_cons, List.count_nil]
  omega

theorem count_due (now timeout : Int) (l : List (DeliveryInfo μ)) (m : μ) :
    (msgs l).count m = (due now timeout l).count m + (msgs (l.filter fun x => !expired now timeout x)).count m := by
  induction l with
  | nil => rfl
  | cons x l ih =>
    by_cases he : expired now timeout x = true
    · simp only [msgs, due, List.filter_cons, he, if_true, List.map_cons, List.count_cons, Bool.not_true,
        Bool.false_eq_true, if_false] at ih ⊢
      omega
    · simp only [msgs, due, List.filter_cons, he, List.map_cons, List.count_cons, Bool.not_false, if_true,
        Bool.false_eq_true, if_false] at ih ⊢
      omega

theorem books_step {s s' : Store μ} {g : Ghost μ} {c : Call μ} {o : Out μ} (hb : Books s g) (hs : Swept s c)
    (h : Does s c s' o) : Books s' (g.after s c o) := by
  refine ⟨allDelivered_step hb.all hs h, ?_⟩
  intro m
  have hm := hb.count m
  rw [accepted_after]
  cases h with
  | nothing val hi hv =>
    have hops : Deque.pushed (opsOf c ({ val := val } : Out μ)) = [] := by
      unfold opsOf
      split
      · simp [hv (by simp), Deque.pushed]
      · simp [hv (by simp), Deque.pushed]
      all_goals rfl
    simpa [hops, Ghost.after] using hm
  | push x hc =>
    have hops : Deque.pushed (opsOf c ({ val := 1 } : Out μ)) = [x] := by rcases hc with rfl | rfl <;> rfl
    simp only [hops, Ghost.after, List.count_append, List.append_nil]
    omega
  | deliver x rest now realloc hc hr =>
    have hops : Deque.pushed (opsOf c { got := some (s.nextTag, x) }) = [] := by rcases hc with rfl | rfl <;> rfl
    simp only [hops, Ghost.after, List.append_nil, msgs, List.map_append, List.map_cons, List.map_nil,
      List.count_append, hr, List.count_cons, List.count_nil] at hm ⊢
    omega
  | ack pre e post hf =>
    have hc := count_found hf m
    simp only [opsOf, Deque.pushed, List.filterMap_nil, List.append_nil, Ghost.after, List.count_append,
      live_found hf hb.all]
    omega
  | discard pre e post hf =>
    have hc := count_found hf m
    simp only [opsOf, List.map_nil, Deque.pushed, List.filterMap_nil, List.append_nil, Ghost.after, List.count_append,
      live_found hf hb.all]
    omega
  | requeue pre e post hf =>
    have hc := count_found hf m
    simp only [opsOf, pushed_returned, List.append_nil, Ghost.after, live_found hf hb.all, List.count_cons,
      List.count_nil] at hc ⊢
    omega
  | overflow pre e post hf =>
    have hc := count_found hf m
    simp only [opsOf, List.map_nil, Deque.pushed, List.filterMap_nil, List.append_nil, Ghost.after, List.count_append,
      live_found hf hb.all]
    omega
  | @pass now timeout d room ht hd hroom =>
    subst hd hroom
    have hc := count_due now timeout s.unacked m
    have htd := congrArg (List.count m)
      (List.take_append_drop (s.capacity - s.ready.length) (due now timeout s.unacked))
    rw [List.count_append] at htd
    simp only [opsOf, pushed_returned, List.append_nil, Ghost.after, List.count_append, List.count_reverse,
      swept_unacked ht hb.all hs]
    omega

theorem books_start {s : Store μ} (h : s.ready = [] ∧ s.unacked = []) : Books s (Ghost.mk [] [] [] []) := by
  refine ⟨?_, ?_⟩
  · intro x hx
    rw [h.2] at hx; cases hx
  · intro m
    rw [h.1, h.2]; rfl

/-! ## Freed once -/

/-- No handle is freed twice, no freed handle is ready or handed out, and freeing the queue
    now would complete one free for each accepted handle. -/
structure FreedOnce (h : Hist μ) : Prop where
  once : h.g.freed.Nodup
  notReady : ∀ m ∈ h.g.freed, m ∉ ready h.q
  notHanded : ∀ c t m, (call h.q c).2.got = some (t, m) → m ∉ h.g.freed
  final : ∀ m, (h.g.freed ++ queueFree h.q).count m = if m ∈ h.g.accepted then 1 else 0

omit [DecidableEq μ] in
theorem queueFree_eq {q : Queue μ} (h : RingOk q) : queueFree q = ready q ++ msgs (live (unacked q)) := by
  unfold queueFree
  congr 1
  apply List.map_congr_left
  intro i hi
  have hi := List.mem_range.mp hi
  have hsz := h.sizeLe
  have hhd := h.headLt
  have hcap := h.capLt
  have hof : (UInt64.ofNat i).toNat = i := UInt64.toNat_ofNat_of_lt' (by simp [UInt64.size]; omega)
  have hsum : (q.head + UInt64.ofNat i).toNat = q.head.toNat + i := by
    rw [UInt64.toNat_add, hof, Nat.mod_eq_of_lt (by omega)]
  rw [UInt64.toNat_mod, hsum]

omit [DecidableEq μ] in
theorem got_ready {q : Queue μ} (h : RingOk q) {c : Call μ} {t : UInt64} {m : μ}
    (hg : (call q c).2.got = some (t, m)) : m ∈ ready q := by
  have hd := (queue_does h c).2
  generalize (call q c).2 = o at hd hg
  generalize store (call q c).1 = s' at hd
  cases hd with
  | deliver x rest now realloc hc hr =>
    have hr : ready q = x :: rest := hr
    cases hg
    rw [hr]
    exact List.mem_cons_self ..
  | nothing => cases hg
  | push => cases hg
  | ack => cases hg
  | discard => cases hg
  | requeue => cases hg
  | overflow => cases hg
  | pass => cases hg

theorem freed_once {name : Option CString} {capacity : UInt64} {garbage : Nat → μ} {info : Nat → DeliveryInfo μ}
    {sync : SyncInit} {h : Heap} {q : Queue μ} (hq : (queueCreate name capacity garbage info sync h).1 = some q)
    (hcap : capacity.toNat < 2 ^ 61) {calls : List (Call μ)} (hdist : (Hist.run q calls).g.accepted.Nodup)
    (hs : Hist.Along Swept q calls) : FreedOnce (Hist.run q calls) := by
  obtain ⟨hring, hstore⟩ := created_ok hq hcap
  obtain ⟨hr, hb⟩ := hist_inv (fun s g c s' o hp hok hd => books_step hp hok hd) hring
    (books_start (by rw [hstore]; exact ⟨rfl, rfl⟩)) hs
  have hone : ∀ m, (Hist.run q calls).g.accepted.count m = if m ∈ (Hist.run q calls).g.accepted then 1 else 0 :=
    fun m => List.Nodup.count hdist
  have hle : ∀ m, (ready (Hist.run q calls).q).count m + (Hist.run q calls).g.freed.count m ≤ 1 := by
    intro m
    have h1 := hb.count m
    have h2 := hone m
    simp only [store] at h1
    split at h2 <;> omega
  have hready : ∀ m ∈ (Hist.run q calls).g.freed, m ∉ ready (Hist.run q calls).q := by
    intro m hf hm
    have := hle m
    have := List.count_pos_iff.mpr hf
    have := List.count_pos_iff.mpr hm
    omega
  refine ⟨List.nodup_iff_count_le_one.mpr fun m => ?_, hready, fun c t m hg hf => hready m hf (got_ready hr hg),
    fun m => ?_⟩
  · have := hle m; omega
  · have h1 := hb.count m
    have hall : ∀ x ∈ unacked (Hist.run q calls).q, x.status = .delivered := hb.all
    rw [queueFree_eq hr, live_of_delivered hall, List.count_append, List.count_append, ← hone m]
    simp only [store] at h1
    omega

/-- Message 1 is in delivery and message 2 fills the slot when the delivery expires. -/
def expiryIntoFull : List (Call Nat) :=
  [.tryEnqueue (some 1), .tryDequeue 0 true, .tryEnqueue (some 2), .processTimeouts 31 30]

/-- The pass frees message 1 and keeps its entry; the late ack finds the entry and frees
    the message again. -/
theorem a_pass_into_a_full_ring_frees_twice : ∃ q, oneSlot = some q ∧
    (Hist.run q (expiryIntoFull ++ [.ack 1])).g.accepted.Nodup ∧
      ¬ FreedOnce (Hist.run q (expiryIntoFull ++ [.ack 1])) :=
  ⟨_, rfl, by decide +kernel, fun h => absurd h.once (by decide +kernel)⟩

/-- The same run with the second message refused: the slot is free when the delivery expires. -/
theorem freed_once_with_room : ∃ q, oneSlot = some q ∧ FreedOnce (Hist.run q
    [.tryEnqueue (some 1), .tryDequeue 0 true, .processTimeouts 31 30, .tryEnqueue (some 2), .tryDequeue 40 true, .ack 2]) :=
  ⟨_, rfl, freed_once (show oneSlot = some _ from rfl) (by decide) (by decide +kernel) (by decide +kernel)⟩

/-! ## (3) Nothing lost -/

/-- A requeue finds a free slot for each message it puts back, and `requeued_count` does
    not overflow. -/
def Fits (s : Store μ) : Call μ → Prop
  | .reject tag requeue => requeue ≠ 0 → tag ∈ tags s.unacked → s.ready.length < s.capacity
  | .processTimeouts now timeout =>
    0 < timeout → (due now timeout s.unacked).length ≤ s.capacity - s.ready.length ∧
      (due now timeout s.unacked).length < 2 ^ 31
  | _ => True

instance (s : Store μ) (c : Call μ) : Decidable (Fits s c) := by
  cases c <;> unfold Fits <;> infer_instance

omit [DecidableEq μ] in
theorem fits_swept {s : Store μ} {c : Call μ} (h : Fits s c) : Swept s c := by
  cases c with
  | processTimeouts now timeout =>
    intro ht
    obtain ⟨hroom, hlt⟩ := h ht
    by_cases hd : due now timeout s.unacked = []
    · exact Or.inl hd
    · have hpos : 0 < (due now timeout s.unacked).length := List.length_pos_iff.mpr hd
      exact Or.inr ⟨by omega, by rw [List.length_take]; omega⟩
  | _ => trivial

/-- Where requeues fit, what is freed is what was settled. -/
structure Kept (s : Store μ) (g : Ghost μ) : Prop where
  books : Books s g
  settled : g.freed = g.settled

theorem kept_step {s s' : Store μ} {g : Ghost μ} {c : Call μ} {o : Out μ} (hk : Kept s g) (hf : Fits s c)
    (h : Does s c s' o) : Kept s' (g.after s c o) := by
  refine ⟨books_step hk.books (fits_swept hf) h, ?_⟩
  have hs := hk.settled
  cases h with
  | nothing val hi hv =>
    have hsub : (if val = 1 then subject s c else []) = [] := by
      by_cases hc : c = .size
      · subst hc; simp [subject]
      · simp [hv hc]
    simp only [Ghost.after, hsub, List.append_nil, hs]
  | push x hc =>
    rcases hc with rfl | rfl <;> simp [Ghost.after, subject, hs]
  | deliver x rest now realloc hc hr => simp [Ghost.after, hs]
  | ack pre e post hfound => simp [Ghost.after, subject, found_find hfound, hs]
  | discard pre e post hfound => simp [Ghost.after, subject, found_find hfound, hs]
  | requeue pre e post hfound h0 => simp [Ghost.after, subject, h0, hs]
  | @overflow t rq pre e post hfound h0 hfull =>
    have hmem : t ∈ tags s.unacked := by
      rw [hfound.1, ← hfound.2.1]
      simp [tags]
    have := hf h0 hmem
    omega
  | pass d room ht hd hroom =>
    subst hd hroom
    rw [Ghost.after]
    simp [List.drop_of_length_le (hf ht).1, hs]

/-- The messages in delivery. -/
def inDelivery (q : Queue μ) : List μ := msgs ((unacked q).filter (·.status == .delivered))

/-- Every handle accepted once is exactly once in the ring or exactly once in delivery,
    unless it was settled. -/
def NoLoss (h : Hist μ) : Prop :=
  ∀ m, h.g.accepted.count m = 1 → m ∉ h.g.settled →
    ((ready h.q).count m = 1 ∧ (inDelivery h.q).count m = 0) ∨
      ((ready h.q).count m = 0 ∧ (inDelivery h.q).count m = 1)

theorem no_message_lost {name : Option CString} {capacity : UInt64} {garbage : Nat → μ} {info : Nat → DeliveryInfo μ}
    {sync : SyncInit} {h : Heap} {q : Queue μ} (hq : (queueCreate name capacity garbage info sync h).1 = some q)
    (hcap : capacity.toNat < 2 ^ 61) {calls : List (Call μ)} (hf : Hist.Along Fits q calls) :
    NoLoss (Hist.run q calls) ∧ ∀ m, (Hist.run q calls).g.accepted.count m =
      (ready (Hist.run q calls).q).count m + (inDelivery (Hist.run q calls).q).count m +
        (Hist.run q calls).g.settled.count m := by
  obtain ⟨hring, hstore⟩ := created_ok hq hcap
  have h0 : Kept (store q) (Hist.start q).g := ⟨books_start (by rw [hstore]; exact ⟨rfl, rfl⟩), rfl⟩
  obtain ⟨-, hk⟩ := hist_inv (fun s g c s' o hp hok hd => kept_step hp hok hd) hring h0 hf
  have hdel : inDelivery (Hist.run q calls).q = msgs (unacked (Hist.run q calls).q) := by
    have hall : ∀ x ∈ unacked (Hist.run q calls).q, x.status = .delivered := hk.books.all
    rw [inDelivery, List.filter_eq_self.mpr fun x hx => by simp [hall x hx]]
  have hcount : ∀ m, (Hist.run q calls).g.accepted.count m = (ready (Hist.run q calls).q).count m +
      (inDelivery (Hist.run q calls).q).count m + (Hist.run q calls).g.settled.count m := by
    intro m
    rw [hdel, ← hk.settled]
    exact hk.books.count m
  refine ⟨?_, hcount⟩
  intro m hm hs
  have h1 := hcount m
  have h2 : (Hist.run q calls).g.settled.count m = 0 := List.count_eq_zero.mpr hs
  omega

/-- A delivery rejected for requeue, or expired, while the ring is full is in no list any more. -/
theorem a_full_ring_loses_the_requeued : ∃ q, oneSlot = some q ∧
    ¬ NoLoss (Hist.run q [.tryEnqueue (some 1), .tryDequeue 0 true, .tryEnqueue (some 2), .reject 1 1]) ∧
    ¬ NoLoss (Hist.run q expiryIntoFull) := by
  refine ⟨_, rfl, ?_, ?_⟩
  · intro h
    exact absurd (h 1 (by decide +kernel) (by decide +kernel)) (by decide +kernel)
  · intro h
    exact absurd (h 1 (by decide +kernel) (by decide +kernel)) (by decide +kernel)

theorem no_message_lost_with_room : ∃ q, oneSlot = some q ∧
    (let h := Hist.run q [.tryEnqueue (some 1), .tryDequeue 0 true, .reject 1 1, .tryDequeue 5 true, .processTimeouts 40 30]
     NoLoss h ∧ ∀ m, h.g.accepted.count m =
       (ready h.q).count m + (inDelivery h.q).count m + h.g.settled.count m) :=
  ⟨_, rfl, no_message_lost (show oneSlot = some _ from rfl) (by decide) (by decide +kernel)⟩

end Books

/-! ## (2) Settled once -/

/-- The tag a dequeue would give is on no entry. -/
def TagFree (s : Store μ) : Call μ → Prop
  | .dequeue _ _ | .tryDequeue _ _ => s.nextTag ∉ tags s.unacked
  | _ => True

instance (s : Store μ) (c : Call μ) : Decidable (TagFree s c) := by
  cases c <;> unfold TagFree <;> infer_instance

/-- The outstanding tags are those of the entries, each on one entry. -/
structure Open (s : Store μ) (g : Ghost μ) : Prop where
  all : AllDelivered s
  nodup : (tags s.unacked).Nodup
  out : ∀ t, t ∈ g.outstanding ↔ t ∈ tags s.unacked

theorem mem_tags {l : List (DeliveryInfo μ)} {t : UInt64} : t ∈ tags l ↔ ∃ x ∈ l, x.deliveryTag = t := by
  simp [tags]

/-- Taking out the entry found leaves the other tags, each still on one entry. -/
theorem tags_found {l pre post : List (DeliveryInfo μ)} {t : UInt64} {e : DeliveryInfo μ} (hf : Found l t pre e post)
    (hn : (tags l).Nodup) : (tags (pre ++ post)).Nodup ∧ ∀ u, u ∈ tags (pre ++ post) ↔ u ∈ tags l ∧ u ≠ t := by
  obtain ⟨rfl, rfl, -⟩ := hf
  simp only [tags, List.map_append, List.map_cons] at hn ⊢
  rw [List.nodup_middle, List.nodup_cons] at hn
  refine ⟨hn.2, fun u => ⟨fun hu => ⟨?_, fun e => hn.1 (e ▸ hu)⟩, fun ⟨hu, hne⟩ => ?_⟩⟩
  · rcases List.mem_append.mp hu with hu | hu
    · exact List.mem_append_left _ hu
    · exact List.mem_append_right _ (List.mem_cons_of_mem _ hu)
  · rcases List.mem_append.mp hu with hu | hu
    · exact List.mem_append_left _ hu
    · exact List.mem_append_right _ ((List.mem_cons.mp hu).resolve_left hne)

theorem tags_filter {l : List (DeliveryInfo μ)} (p : DeliveryInfo μ → Bool) (hn : (tags l).Nodup) :
    (tags (l.filter fun x => !p x)).Nodup ∧
      ∀ u, u ∈ tags (l.filter fun x => !p x) ↔ u ∈ tags l ∧ u ∉ tags (l.filter p) := by
  refine ⟨hn.sublist (List.filter_sublist.map _), ?_⟩
  intro u
  simp only [mem_tags, List.mem_filter, Bool.not_eq_true', not_exists, not_and]
  constructor
  · intro hu
    rcases hu with ⟨x, ⟨hx, hp⟩, rfl⟩
    refine ⟨⟨x, hx, rfl⟩, ?_⟩
    intro y hy he
    have hxy : y = x := List.inj_on_of_nodup_map hn hy.1 hx he
    rw [hxy, hp] at hy
    cases hy.2
  · intro hu
    rcases hu with ⟨⟨x, hx, rfl⟩, hno⟩
    refine ⟨x, ⟨hx, ?_⟩, rfl⟩
    cases hp : p x
    · rfl
    · exact absurd rfl (hno x ⟨hx, hp⟩)

theorem open_step {s s' : Store μ} {g : Ghost μ} {c : Call μ} {o : Out μ} (ho : Open s g) (hs : Swept s c)
    (hfree : TagFree s c) (h : Does s c s' o) : Open s' (g.after s c o) := by
  have hall' := allDelivered_step ho.all hs h
  cases h with
  | nothing val hi hv =>
    refine ⟨hall', ho.nodup, ?_⟩
    intro t
    rw [← ho.out t]
    simp only [Ghost.after, outstandingAfter]
    split
    · simp
    · simp
    · simp [hv (by simp)]
    · simp [hv (by simp)]
    · rename_i now timeout
      have ht : ¬ 0 < timeout := by simpa [Idle] using hi
      simp [ht]
    · rfl
  | push x hc =>
    refine ⟨hall', ho.nodup, ?_⟩
    intro t
    rcases hc with rfl | rfl <;> exact ho.out t
  | deliver x rest now realloc hc hr =>
    have hnew : s.nextTag ∉ tags s.unacked := by rcases hc with rfl | rfl <;> exact hfree
    refine ⟨hall', ?_, ?_⟩
    · simp only [tags, List.map_append, List.map_cons, List.map_nil]
      exact ho.nodup.append (List.nodup_singleton _) (by simpa [tags] using hnew)
    · intro t
      have hout := ho.out t
      rcases hc with rfl | rfl <;> simp [Ghost.after, outstandingAfter, tags] at hout ⊢ <;> simp [hout]
  | ack pre e post hf =>
    obtain ⟨hn, hm⟩ := tags_found hf ho.nodup
    refine ⟨hall', ?_, ?_⟩
    · simpa only [live_found hf ho.all] using hn
    · intro t
      simp [Ghost.after, outstandingAfter, live_found hf ho.all, hm, ho.out]
  | discard pre e post hf =>
    obtain ⟨hn, hm⟩ := tags_found hf ho.nodup
    refine ⟨hall', ?_, ?_⟩
    · simpa only [live_found hf ho.all] using hn
    · intro t
      simp [Ghost.after, outstandingAfter, live_found hf ho.all, hm, ho.out]
  | requeue pre e post hf =>
    obtain ⟨hn, hm⟩ := tags_found hf ho.nodup
    refine ⟨hall', ?_, ?_⟩
    · simpa only [live_found hf ho.all] using hn
    · intro t
      simp [Ghost.after, outstandingAfter, live_found hf ho.all, hm, ho.out]
  | overflow pre e post hf =>
    obtain ⟨hn, hm⟩ := tags_found hf ho.nodup
    refine ⟨hall', ?_, ?_⟩
    · simpa only [live_found hf ho.all] using hn
    · intro t
      simp [Ghost.after, outstandingAfter, live_found hf ho.all, hm, ho.out]
  | @pass now timeout d room ht hd hroom =>
    subst hd hroom
    obtain ⟨hn, hm⟩ := tags_filter (expired now timeout) ho.nodup
    refine ⟨hall', ?_, ?_⟩
    · simpa only [swept_unacked ht ho.all hs] using hn
    · intro t
      simp only [swept_unacked ht ho.all hs, hm]
      simp [Ghost.after, outstandingAfter, ht, ho.out]

/-- Ack and reject return 1 exactly for the tags outstanding, and change nothing when they
    return 0. -/
def SettledOnce (h : Hist μ) : Prop :=
  ∀ t rq, ((queueAck h.q t).2.val = 1 ↔ t ∈ h.g.outstanding) ∧
    ((queueReject h.q t rq).2.val = 1 ↔ t ∈ h.g.outstanding) ∧
    ((queueAck h.q t).2.val = 0 → (queueAck h.q t).1 = h.q) ∧
    ((queueReject h.q t rq).2.val = 0 → (queueReject h.q t rq).1 = h.q)

/-- Both searches succeed exactly for a tag on some entry. -/
theorem found_iff (q : Queue μ) (t : UInt64) (rq : Int) :
    ((queueAck q t).2.val = 1 ↔ t ∈ tags (unacked q)) ∧ ((queueReject q t rq).2.val = 1 ↔ t ∈ tags (unacked q)) ∧
      ((queueAck q t).2.val = 0 → (queueAck q t).1 = q) ∧ ((queueReject q t rq).2.val = 0 → (queueReject q t rq).1 = q) := by
  unfold queueAck queueReject
  cases hf : findTag q t with
  | none =>
    have hno : t ∉ tags (unacked q) := by
      intro h
      obtain ⟨x, hx, he⟩ := mem_tags.mp h
      exact findTag_none hf x hx he
    simp [hno]
  | some i =>
    obtain ⟨pre, post, hfound, -⟩ := findTag_some hf
    have hyes : t ∈ tags (unacked q) := by
      rw [hfound.1, ← hfound.2.1]
      simp [tags]
    simp only [hyes, iff_true]
    by_cases h0 : rq = 0
    · simp [h0]
    · rw [if_neg h0]
      split <;> simp

theorem settled_once {name : Option CString} {capacity : UInt64} {garbage : Nat → μ} {info : Nat → DeliveryInfo μ}
    {sync : SyncInit} {h : Heap} {q : Queue μ} (hq : (queueCreate name capacity garbage info sync h).1 = some q)
    (hcap : capacity.toNat < 2 ^ 61) {calls : List (Call μ)}
    (hs : Hist.Along (fun s c => Swept s c ∧ TagFree s c) q calls) : SettledOnce (Hist.run q calls) := by
  obtain ⟨hring, hstore⟩ := created_ok hq hcap
  have h0 : Open (store q) (Hist.start q).g := by
    rw [hstore]
    exact ⟨fun _ hx => absurd hx List.not_mem_nil, List.nodup_nil, fun _ => Iff.rfl⟩
  obtain ⟨-, ho⟩ := hist_inv (fun s g c s' o hp hok hd => open_step hp hok.1 hok.2 hd) hring h0 hs
  intro t rq
  obtain ⟨h1, h2, h3, h4⟩ := found_iff (Hist.run q calls).q t rq
  exact ⟨h1.trans (ho.out t).symm, h2.trans (ho.out t).symm, h3, h4⟩

/-- After the pass tag 1 has expired, and ack and reject still accept it. -/
theorem an_expired_delivery_is_accepted : ∃ q, oneSlot = some q ∧ ¬ SettledOnce (Hist.run q expiryIntoFull) :=
  ⟨_, rfl, fun h => absurd ((h 1 0).1.mp (by decide +kernel)) (by decide +kernel)⟩

theorem settled_once_with_room : ∃ q, oneSlot = some q ∧ SettledOnce (Hist.run q
    [.tryEnqueue (some 1), .tryDequeue 0 true, .processTimeouts 31 30, .tryDequeue 40 true, .ack 1]) :=
  ⟨_, rfl, settled_once (show oneSlot = some _ from rfl) (by decide) (by decide +kernel)⟩

end RabbitMQ.Core
