/-
  RabbitMQ.Lib.Holders — things that one holder has at a time.

  A holder has at most one thing. It takes one when it has none, passes what it has to
  another that has none, or releases it. `Sole`: no thing has two holders, and whatever was
  taken is held or was released once. Taking a thing for the first time, passing and
  releasing keep it (`sole_take`, `sole_pass`, `sole_release`), so when nothing is held any
  more each thing taken was released exactly once, and no other was (`Sole.settled`).
-/

import Mathlib.Logic.Function.Basic
import Mathlib.Data.List.Nodup

namespace Lib.Holders

structure Estate (ι τ : Type) where
  holds : ι → Option τ
  taken : List τ
  released : List τ

variable {ι τ : Type}

def start : Estate ι τ := ⟨fun _ => none, [], []⟩

section Moves

variable [DecidableEq ι]

def take (s : Estate ι τ) (i : ι) (t : τ) : Estate ι τ :=
  { s with holds := Function.update s.holds i (some t), taken := s.taken ++ [t] }

def pass (s : Estate ι τ) (i j : ι) : Estate ι τ :=
  { s with holds := Function.update (Function.update s.holds j (s.holds i)) i none }

def release (s : Estate ι τ) (i : ι) : Estate ι τ :=
  { s with holds := Function.update s.holds i none, released := s.released ++ (s.holds i).toList }

/-- Who has something now has taken it, or had it. -/
theorem take_holds {s : Estate ι τ} {i k : ι} {t u : τ} (h : (take s i t).holds k = some u) :
    (k = i ∧ u = t) ∨ (k ≠ i ∧ s.holds k = some u) := by
  by_cases hk : k = i
  · subst hk
    simp only [take, Function.update_self] at h
    exact Or.inl ⟨rfl, (Option.some.inj h).symm⟩
  · simp only [take, Function.update_of_ne hk] at h
    exact Or.inr ⟨hk, h⟩

/-- Who has something now has it from `i`, or had it. -/
theorem pass_holds {s : Estate ι τ} {i j k : ι} {t : τ} (h : (pass s i j).holds k = some t) :
    (k = j ∧ s.holds i = some t) ∨ (k ≠ i ∧ k ≠ j ∧ s.holds k = some t) := by
  by_cases hki : k = i
  · subst hki
    simp only [pass, Function.update_self] at h
    cases h
  · simp only [pass, Function.update_of_ne hki] at h
    by_cases hkj : k = j
    · subst hkj
      rw [Function.update_self] at h
      exact Or.inl ⟨rfl, h⟩
    · rw [Function.update_of_ne hkj] at h
      exact Or.inr ⟨hki, hkj, h⟩

theorem release_holds {s : Estate ι τ} {i k : ι} {t : τ} (h : (release s i).holds k = some t) :
    k ≠ i ∧ s.holds k = some t := by
  by_cases hk : k = i
  · subst hk
    simp only [release, Function.update_self] at h
    cases h
  · simp only [release, Function.update_of_ne hk] at h
    exact ⟨hk, h⟩

end Moves

structure Sole (s : Estate ι τ) : Prop where
  one : ∀ i j t, s.holds i = some t → s.holds j = some t → i = j
  held : ∀ i t, s.holds i = some t → t ∈ s.taken ∧ t ∉ s.released
  out : ∀ t ∈ s.taken, t ∈ s.released ∨ ∃ i, s.holds i = some t
  once : s.released.Nodup
  only : s.released ⊆ s.taken

theorem sole_start : Sole (start : Estate ι τ) where
  one _ _ _ h := by cases h
  held _ _ h := by cases h
  out _ h := absurd h List.not_mem_nil
  once := List.nodup_nil
  only _ h := absurd h List.not_mem_nil

variable [DecidableEq ι] {s : Estate ι τ} {i j : ι} {t : τ}

theorem sole_take (h : Sole s) (hi : s.holds i = none) (ht : t ∉ s.taken) : Sole (take s i t) := by
  refine ⟨fun k l u hk hl => ?_, fun k u hk => ?_, fun u hu => ?_, h.once, fun u hu => ?_⟩
  · rcases take_holds hk with ⟨rfl, rfl⟩ | ⟨-, hk'⟩
    · rcases take_holds hl with ⟨rfl, -⟩ | ⟨-, hl'⟩
      · rfl
      · exact absurd (h.held l u hl').1 ht
    · rcases take_holds hl with ⟨-, rfl⟩ | ⟨-, hl'⟩
      · exact absurd (h.held k u hk').1 ht
      · exact h.one k l u hk' hl'
  · rcases take_holds hk with ⟨-, rfl⟩ | ⟨-, hk⟩
    · exact ⟨List.mem_append_right _ (List.mem_singleton.mpr rfl), fun hr => ht (h.only hr)⟩
    · exact ⟨List.mem_append_left _ (h.held k u hk).1, (h.held k u hk).2⟩
  · rcases List.mem_append.mp hu with hu | hu
    · rcases h.out u hu with hr | ⟨k, hk⟩
      · exact Or.inl hr
      · refine Or.inr ⟨k, ?_⟩
        have hki : k ≠ i := by
          intro he
          rw [he, hi] at hk
          cases hk
        simp only [take, Function.update_of_ne hki]
        exact hk
    · rw [List.mem_singleton.mp hu]
      exact Or.inr ⟨i, by simp only [take, Function.update_self]⟩
  · exact List.mem_append_left _ (h.only hu)

theorem sole_release (h : Sole s) (i : ι) : Sole (release s i) := by
  refine ⟨fun k l u hk hl => ?_, fun k u hk => ?_, fun u hu => ?_, ?_, fun u hu => ?_⟩
  · exact h.one k l u (release_holds hk).2 (release_holds hl).2
  · obtain ⟨hki, hk⟩ := release_holds hk
    refine ⟨(h.held k u hk).1, fun hr => ?_⟩
    rcases List.mem_append.mp hr with hr | hr
    · exact (h.held k u hk).2 hr
    · exact hki (h.one k i u hk (Option.mem_toList.mp hr))
  · rcases h.out u hu with hr | ⟨k, hk⟩
    · exact Or.inl (List.mem_append_left _ hr)
    · by_cases hki : k = i
      · rw [hki] at hk
        exact Or.inl (List.mem_append_right _ (Option.mem_toList.mpr hk))
      · refine Or.inr ⟨k, ?_⟩
        simp only [release, Function.update_of_ne hki]
        exact hk
  · simp only [release]
    cases hi : s.holds i with
    | none => simpa using h.once
    | some u => exact h.once.append (List.nodup_singleton u) fun v hv hu =>
        (h.held i u hi).2 (List.mem_singleton.mp hu ▸ hv)
  · rcases List.mem_append.mp hu with hu | hu
    · exact h.only hu
    · exact (h.held i u (Option.mem_toList.mp hu)).1

theorem sole_pass (h : Sole s) (hij : i ≠ j) (hj : s.holds j = none) : Sole (pass s i j) := by
  refine ⟨fun k l u hk hl => ?_, fun k u hk => ?_, fun u hu => ?_, h.once, h.only⟩
  · rcases pass_holds hk with ⟨rfl, hk'⟩ | ⟨hki, -, hk'⟩
    · rcases pass_holds hl with ⟨rfl, -⟩ | ⟨hli, -, hl'⟩
      · rfl
      · exact absurd (h.one l i u hl' hk') hli
    · rcases pass_holds hl with ⟨rfl, hl'⟩ | ⟨-, -, hl'⟩
      · exact absurd (h.one k i u hk' hl') hki
      · exact h.one k l u hk' hl'
  · rcases pass_holds hk with ⟨-, hk⟩ | ⟨-, -, hk⟩
    · exact h.held i u hk
    · exact h.held k u hk
  · rcases h.out u hu with hr | ⟨k, hk⟩
    · exact Or.inl hr
    by_cases hki : k = i
    · rw [hki] at hk
      refine Or.inr ⟨j, ?_⟩
      simp only [pass, Function.update_of_ne (Ne.symm hij), Function.update_self]
      exact hk
    · refine Or.inr ⟨k, ?_⟩
      have hkj : k ≠ j := by
        intro he
        rw [he, hj] at hk
        cases hk
      simp only [pass, Function.update_of_ne hki, Function.update_of_ne hkj]
      exact hk

omit [DecidableEq ι] in
/-- Nothing is held any more. -/
theorem Sole.settled [DecidableEq τ] (h : Sole s) (hnone : ∀ i, s.holds i = none) (t : τ) :
    s.released.count t = if t ∈ s.taken then 1 else 0 := by
  by_cases ht : t ∈ s.taken
  · rw [if_pos ht]
    rcases h.out t ht with hr | ⟨i, hi⟩
    · exact List.count_eq_one_of_mem h.once hr
    · rw [hnone i] at hi
      cases hi
  · rw [if_neg ht, List.count_eq_zero]
    exact fun hr => ht (h.only hr)

end Lib.Holders
