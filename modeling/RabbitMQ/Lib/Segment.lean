/-
  RabbitMQ.Lib.Segment — the first `n` cells of an array, as a list.

  An array is a function from cell numbers; `seg mem n` lists cells `0 … n-1`. `compact`
  is the usual in-place purge: one pass that slides the kept cells down over the others
  and counts them. What it leaves in the counted cells is the filter of what was there
  (`seg_compact`), and it writes no cell past the last one it read (`compact_above`).
-/

import Mathlib.Logic.Function.Basic
import Mathlib.Data.List.Range

namespace Lib.Segment

variable {α : Type}

def seg (mem : Nat → α) (n : Nat) : List α := (List.range n).map mem

@[simp] theorem seg_zero (mem : Nat → α) : seg mem 0 = [] := rfl

theorem seg_succ (mem : Nat → α) (n : Nat) : seg mem (n + 1) = seg mem n ++ [mem n] := by
  simp [seg, List.range_succ]

theorem seg_congr {f g : Nat → α} {n : Nat} (h : ∀ i < n, f i = g i) : seg f n = seg g n :=
  List.map_congr_left fun i hi => h i (List.mem_range.mp hi)

theorem mem_seg {mem : Nat → α} {n : Nat} {x : α} : x ∈ seg mem n ↔ ∃ i < n, mem i = x := by
  simp [seg]

theorem seg_update_above {mem : Nat → α} {n k : Nat} (x : α) (h : n ≤ k) :
    seg (Function.update mem k x) n = seg mem n :=
  seg_congr fun i hi => Function.update_of_ne (by omega) x mem

/-- A write just past the end, then one more cell: the list grows by it. -/
theorem seg_push (mem : Nat → α) (n : Nat) (x : α) : seg (Function.update mem n x) (n + 1) = seg mem n ++ [x] := by
  rw [seg_succ, Function.update_self, seg_update_above x (Nat.le_refl n)]

/-- A write inside splits the list at the cell. -/
theorem seg_split (mem : Nat → α) : ∀ {n k : Nat}, k < n →
    ∃ post, seg mem n = seg mem k ++ mem k :: post ∧
      ∀ x, seg (Function.update mem k x) n = seg mem k ++ x :: post := by
  intro n
  induction n with
  | zero => intro k h; omega
  | succ n ih =>
    intro k h
    by_cases e : k = n
    · subst e
      exact ⟨[], seg_succ mem k, seg_push mem k⟩
    · obtain ⟨post, h1, h2⟩ := ih (show k < n by omega)
      refine ⟨post ++ [mem n], by rw [seg_succ, h1]; simp, ?_⟩
      intro x
      rw [seg_succ, h2, Function.update_of_ne (by omega)]
      simp

/-! ## First match -/

/-- The first cell number below `n` whose cell satisfies `p`: a loop with a `break`. -/
def first (p : α → Bool) (mem : Nat → α) (n : Nat) : Option Nat := (List.range n).find? fun i => p (mem i)

theorem first_none {p : α → Bool} {mem : Nat → α} {n : Nat} (h : first p mem n = none) :
    ∀ x ∈ seg mem n, p x = false := by
  intro x hx
  obtain ⟨i, hi, rfl⟩ := mem_seg.mp hx
  simpa using List.find?_eq_none.mp h i (List.mem_range.mpr hi)

theorem first_some {p : α → Bool} {mem : Nat → α} {n k : Nat} (h : first p mem n = some k) :
    k < n ∧ p (mem k) = true ∧ ∀ x ∈ seg mem k, p x = false := by
  obtain ⟨hk, i, hi, hget, hbefore⟩ := List.find?_eq_some_iff_getElem.mp h
  have hki : k = i := by simpa using hget.symm
  subst hki
  refine ⟨by simpa using hi, hk, ?_⟩
  intro x hx
  obtain ⟨j, hj, rfl⟩ := mem_seg.mp hx
  simpa using hbefore j hj

/-! ## Purging in place -/

/-- One turn of the purge: cell `i` is copied down to cell `count` when it is kept. -/
def compactStep (keep : α → Bool) (s : (Nat → α) × Nat) (i : Nat) : (Nat → α) × Nat :=
  if keep (s.1 i) then (if i ≠ s.2 then Function.update s.1 s.2 (s.1 i) else s.1, s.2 + 1) else s

def compact (keep : α → Bool) (mem : Nat → α) (n : Nat) : (Nat → α) × Nat :=
  (List.range n).foldl (compactStep keep) (mem, 0)

theorem compact_succ (keep : α → Bool) (mem : Nat → α) (n : Nat) :
    compact keep mem (n + 1) = compactStep keep (compact keep mem n) n := by
  simp [compact, List.range_succ]

/-- The purge counts at most what it read, and cells it has not read are as they were. -/
theorem compact_above (keep : α → Bool) (mem : Nat → α) (n : Nat) :
    (compact keep mem n).2 ≤ n ∧ ∀ i, n ≤ i → (compact keep mem n).1 i = mem i := by
  induction n with
  | zero => exact ⟨Nat.le_refl _, fun _ _ => rfl⟩
  | succ n ih =>
    obtain ⟨hle, habove⟩ := ih
    rw [compact_succ, compactStep]
    split
    · refine ⟨by show (compact keep mem n).2 + 1 ≤ n + 1; omega, ?_⟩
      intro i hi
      show (if n ≠ (compact keep mem n).2 then
        Function.update (compact keep mem n).1 (compact keep mem n).2 ((compact keep mem n).1 n)
        else (compact keep mem n).1) i = mem i
      split
      · rw [Function.update_of_ne (by omega), habove i (by omega)]
      · exact habove i (by omega)
    · exact ⟨by omega, fun i hi => habove i (by omega)⟩

theorem seg_compact (keep : α → Bool) (mem : Nat → α) (n : Nat) :
    seg (compact keep mem n).1 (compact keep mem n).2 = (seg mem n).filter keep := by
  induction n with
  | zero => rfl
  | succ n ih =>
    obtain ⟨hle, habove⟩ := compact_above keep mem n
    have hn : (compact keep mem n).1 n = mem n := habove n (Nat.le_refl n)
    rw [compact_succ, compactStep, hn, seg_succ, List.filter_append, ← ih]
    by_cases hk : keep (mem n) = true
    · simp only [hk, if_true, List.filter_cons_of_pos, List.filter_nil]
      by_cases e : n = (compact keep mem n).2
      · rw [if_neg (by simpa using e), seg_succ, ← e, hn]
      · rw [if_pos e, seg_push]
    · simp [hk]

end Lib.Segment
