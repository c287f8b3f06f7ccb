/-
  RabbitMQ.Lib.Names — names that are given to things, taken back and given again, while
  others hold copies of them.

  `t` says what each name is given to now. A copy of a name, taken when it was one thing's,
  is sound while nothing else has it (`Means`). Taking a name back keeps every copy sound
  (`means_release`); giving a free one away keeps exactly the copies of other names, and the
  new thing's own (`means_give_iff`).
-/

import Mathlib.Logic.Function.Basic

namespace Lib.Names

variable {ν ω : Type} {t : ν → Option ω} {n m : ν} {own new : ω}

/-- If name `n` is given to anything, then to `own`. -/
def Means (t : ν → Option ω) (n : ν) (own : ω) : Prop := ∀ x, t n = some x → x = own

theorem means_free (h : t n = none) : Means t n own := by
  intro x hx
  rw [h] at hx
  cases hx

variable [DecidableEq ν]

theorem means_release (h : Means t n own) : Means (Function.update t m none) n own := by
  by_cases hnm : n = m
  · subst hnm
    exact means_free (Function.update_self n none t)
  · intro x hx
    rw [Function.update_of_ne hnm] at hx
    exact h x hx

theorem means_give_iff : Means (Function.update t m (some new)) n own ↔ if n = m then new = own else Means t n own := by
  by_cases hnm : n = m
  · subst hnm
    simp [Means]
  · simp [Means, hnm]

end Lib.Names
