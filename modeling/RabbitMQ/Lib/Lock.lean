/-
  RabbitMQ.Lib.Lock — threads that take turns under one lock.

  `threads` says where each thread is and `holder` who holds the lock. `Excludes inside`: the
  places that count as inside are held by the holder and by no one else. It is kept by a
  thread that stays on its side (`stay`), takes the lock when it is free (`take`) or gives it
  back (`release`).
-/

import Mathlib.Logic.Function.Basic

namespace Lib.Lock

variable {ι π : Type} [DecidableEq ι]

def Excludes (inside : π → Prop) (holder : Option ι) (threads : ι → π) : Prop :=
  ∀ t, inside (threads t) ↔ holder = some t

/-- Where the holder is. -/
def current (outside : π) (holder : Option ι) (threads : ι → π) : π := (holder.map threads).getD outside

variable {inside : π → Prop} {holder : Option ι} {threads : ι → π} {t : ι} {p outside : π}

theorem Excludes.stay (h : Excludes inside holder threads) (hp : inside p ↔ inside (threads t)) :
    Excludes inside holder (Function.update threads t p) := by
  intro u
  by_cases hu : u = t
  · subst hu
    rw [Function.update_self, hp]
    exact h u
  · rw [Function.update_of_ne hu]
    exact h u

theorem Excludes.take (h : Excludes inside none threads) (hp : inside p) :
    Excludes inside (some t) (Function.update threads t p) := by
  intro u
  by_cases hu : u = t
  · subst hu
    rw [Function.update_self]
    exact iff_of_true hp rfl
  · rw [Function.update_of_ne hu, h u]
    exact iff_of_false (Option.some_ne_none u).symm fun he => hu (Option.some.inj he).symm

theorem Excludes.release (h : Excludes inside (some t) threads) (hp : ¬ inside p) :
    Excludes inside none (Function.update threads t p) := by
  intro u
  by_cases hu : u = t
  · subst hu
    rw [Function.update_self]
    exact iff_of_false hp (Option.some_ne_none u).symm
  · rw [Function.update_of_ne hu, h u]
    exact iff_of_false (fun he => hu (Option.some.inj he).symm) (Option.some_ne_none u).symm

omit [DecidableEq ι] in
@[simp] theorem current_none : current outside none threads = outside := rfl

omit [DecidableEq ι] in
@[simp] theorem current_some : current outside (some t) threads = threads t := rfl

/-- The holder's own step. -/
theorem current_self : current outside (some t) (Function.update threads t p) = p := Function.update_self ..

/-- A step of a thread outside. -/
theorem Excludes.current_other (h : Excludes inside holder threads) (ht : ¬ inside (threads t)) :
    current outside holder (Function.update threads t p) = current outside holder threads := by
  cases holder with
  | none => rfl
  | some u =>
    have hu : u ≠ t := by
      intro he
      subst he
      exact ht ((h u).mpr rfl)
    exact Function.update_of_ne hu ..

end Lib.Lock
