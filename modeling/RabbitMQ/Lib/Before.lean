/-
  RabbitMQ.Lib.Before — one element before another in a list.

  In a list without repetition an element is not both before and after another
  (`before_asymm`), and of two different elements one is before the other
  (`before_total`). Reversing a list turns the order round (`before_reverse`). So a list
  whose order is kept by its reverse has no two elements in order (`reversed_keeps_iff`).
-/

import Mathlib.Data.List.Nodup

namespace Lib

variable {α β : Type}

/-- An `x` and, further on, a `y`. -/
def Before (l : List α) (x y : α) : Prop := [x, y].Sublist l

theorem Before.mem_left {l : List α} {x y : α} (h : Before l x y) : x ∈ l := h.subset List.mem_cons_self

theorem Before.mem_right {l : List α} {x y : α} (h : Before l x y) : y ∈ l :=
  h.subset (List.mem_cons_of_mem x List.mem_cons_self)

theorem before_reverse {l : List α} {x y : α} : Before l.reverse x y ↔ Before l y x := by
  have h : [y, x].reverse.Sublist l.reverse ↔ [y, x].Sublist l := List.reverse_sublist
  exact h

theorem Before.append_right {l : List α} {x y : α} (h : Before l x y) (after : List α) : Before (l ++ after) x y :=
  List.Sublist.trans h (List.sublist_append_left l after)

theorem Before.map {l : List α} {x y : α} (h : Before l x y) (f : α → β) : Before (l.map f) (f x) (f y) :=
  List.Sublist.map f h

theorem before_asymm {l : List α} (hn : l.Nodup) {x y : α} (h : Before l x y) : ¬ Before l y x := by
  induction l with
  | nil => cases h
  | cons z l ih =>
    obtain ⟨hz, hn⟩ := List.nodup_cons.mp hn
    intro h'
    cases h with
    | cons _ h =>
      cases h' with
      | cons _ h' => exact ih hn h h'
      | cons_cons _ h' => exact hz (Before.mem_right h)
    | cons_cons _ h =>
      cases h' with
      | cons _ h' => exact hz (Before.mem_right h')
      | cons_cons _ h' => exact hz (h.subset List.mem_cons_self)

theorem before_total {l : List α} {x y : α} (hx : x ∈ l) (hy : y ∈ l) (hne : x ≠ y) : Before l x y ∨ Before l y x := by
  induction l with
  | nil => cases hx
  | cons z l ih =>
    rcases List.mem_cons.mp hx with ex | hxl
    · subst ex
      have hyl : y ∈ l := (List.mem_cons.mp hy).resolve_left hne.symm
      exact Or.inl ((List.singleton_sublist.mpr hyl).cons_cons x)
    · rcases List.mem_cons.mp hy with ey | hyl
      · subst ey
        exact Or.inr ((List.singleton_sublist.mpr hxl).cons_cons y)
      · exact (ih hxl hyl).imp (List.Sublist.cons z) (List.Sublist.cons z)

/-- The reverse of a list, put before others, has two elements of the list in their order
    exactly where the list has no two in order. -/
theorem reversed_keeps_iff {l : List α} {f : α → β} {after : List β} (hn : (l.map f ++ after).Nodup) {R : α → α → Prop}
    (hirrefl : ∀ a, ¬ R a a) :
    (∀ a ∈ l, ∀ b ∈ l, R a b → Before ((l.map f).reverse ++ after) (f a) (f b)) ↔ l.Pairwise fun a b => ¬ R a b := by
  have hperm : ((l.map f).reverse ++ after).Nodup := by
    refine (List.Perm.nodup_iff ?_).mpr hn
    exact (List.reverse_perm _).append_right after
  constructor
  · intro h
    rw [List.pairwise_iff_forall_sublist]
    intro a b hab hr
    have hab : Before l a b := hab
    have hafter : Before ((l.map f).reverse ++ after) (f b) (f a) :=
      Before.append_right (before_reverse.mpr (hab.map f)) after
    exact before_asymm hperm hafter (h a hab.mem_left b hab.mem_right hr)
  · intro h a ha b hb hr
    have hne : a ≠ b := fun e => hirrefl b (e ▸ hr)
    rcases before_total ha hb hne with hab | hba
    · exact absurd hr (List.pairwise_iff_forall_sublist.mp h hab)
    · exact Before.append_right (before_reverse.mpr (hba.map f)) after

/-- A list with all its pairs in order and none has at most one element. -/
theorem pairwise_and_not {l : List α} {R : α → α → Prop} (h : l.Pairwise R) :
    (l.Pairwise fun a b => ¬ R a b) ↔ l.length ≤ 1 := by
  cases h with
  | nil => exact iff_of_true .nil (Nat.zero_le 1)
  | @cons x l hx hl =>
    cases l with
    | nil => exact iff_of_true (List.pairwise_singleton _ _) (Nat.le_refl 1)
    | cons y l =>
      refine iff_of_false (fun hnot => ?_) (by simp)
      exact (List.pairwise_cons.mp hnot).1 y List.mem_cons_self (hx y List.mem_cons_self)

end Lib
