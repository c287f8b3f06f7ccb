/-
  RabbitMQ.Lib.CondVar — a condition variable: its waiters, asleep and woken.

  A waiter that has been woken has not run yet: it gets the mutex at a later step
  (`resume`) and tests its condition again. A signal wakes at least one waiter where there
  is one (`signal`): which ones is up to the environment, `p`. Waiters may also wake on
  their own (`wake`).

  `Paid n c`: nobody sleeps beside more units of what is waited for, `n`, than there are
  waiters on their way to them. A unit made available is paid for by a signal
  (`paid_signal`); a unit taken by anyone (`paid_mono`), a waiter going to sleep where
  there is none (`paid_sleep`), a spurious wake-up (`paid_wake`) and a woken waiter that
  takes a unit (`paid_resume`) leave the account in order.
-/

import Mathlib.Data.List.Basic

namespace Lib.CondVar

variable {ω : Type}

structure Cond (ω : Type) where
  asleep : List ω
  woken : List ω
  deriving DecidableEq, Repr

namespace Cond

def sleep (c : Cond ω) (w : ω) : Cond ω := { c with asleep := c.asleep ++ [w] }

/-- The waiters `p` picks wake up. -/
def wake (c : Cond ω) (p : ω → Bool) : Cond ω := ⟨c.asleep.filter (!p ·), c.woken ++ c.asleep.filter p⟩

/-- At least one: the first in line when `p` picks none. -/
def signal (c : Cond ω) (p : ω → Bool) : Cond ω :=
  if c.asleep.any p then c.wake p
  else
    match c.asleep with
    | [] => c
    | w :: rest => ⟨rest, c.woken ++ [w]⟩

/-- A woken waiter has the mutex again. -/
def resume (c : Cond ω) (p : ω → Bool) : Cond ω := { c with woken := c.woken.eraseP p }

def waiters (c : Cond ω) : List ω := c.asleep ++ c.woken

end Cond

/-! ## Accounts -/

def Paid (n : Nat) (c : Cond ω) : Prop := c.asleep ≠ [] → n ≤ c.woken.length

instance (n : Nat) (c : Cond ω) : Decidable (Paid n c) :=
  match h : c.asleep with
  | [] => isTrue fun hne => absurd h hne
  | _ :: _ => decidable_of_iff (n ≤ c.woken.length) ⟨fun hle _ => hle, fun hp => hp (by simp [h])⟩

variable {n : Nat} {c : Cond ω}

theorem paid_iff : Paid n c ↔ c.asleep = [] ∨ n ≤ c.woken.length := by
  unfold Paid
  by_cases h : c.asleep = []
  · simp [h]
  · simp [h]

theorem paid_mono {m : Nat} (h : Paid n c) (hm : m ≤ n) : Paid m c := fun hne => Nat.le_trans hm (h hne)

theorem paid_sleep (w : ω) : Paid 0 (c.sleep w) := fun _ => Nat.zero_le _

theorem paid_wake (h : Paid n c) (p : ω → Bool) : Paid n (c.wake p) := by
  intro hne
  have hold : c.asleep ≠ [] := by
    intro hnil
    exact hne (by rw [Cond.wake, hnil]; rfl)
  have := h hold
  show n ≤ (c.woken ++ c.asleep.filter p).length
  rw [List.length_append]
  omega

theorem paid_signal (h : Paid n c) (p : ω → Bool) : Paid (n + 1) (c.signal p) := by
  unfold Cond.signal
  by_cases hany : c.asleep.any p = true
  · -- somebody is picked
    rw [if_pos hany]
    intro _
    obtain ⟨w, hw, hp⟩ := List.any_eq_true.mp hany
    have hpos : 0 < (c.asleep.filter p).length := List.length_pos_of_mem (List.mem_filter.mpr ⟨hw, hp⟩)
    have hle := h (List.ne_nil_of_mem hw)
    show n + 1 ≤ (c.woken ++ c.asleep.filter p).length
    rw [List.length_append]
    omega
  · rw [if_neg hany]
    cases hs : c.asleep with
    | nil => exact fun hne => absurd hs hne
    | cons w rest =>
      intro _
      have hle := h (by rw [hs]; exact List.cons_ne_nil _ _)
      show n + 1 ≤ (c.woken ++ [w]).length
      rw [List.length_append, List.length_singleton]
      omega

/-- The woken waiter is one unit's worth. -/
theorem paid_resume (h : Paid n c) (p : ω → Bool) : Paid (n - 1) (c.resume p) := by
  intro hne
  have hle := h hne
  show n - 1 ≤ (c.woken.eraseP p).length
  rw [List.length_eraseP]
  split
  · omega
  · omega

theorem resume_length {p : ω → Bool} {w : ω} (hw : w ∈ c.woken) (hp : p w = true) :
    (c.resume p).woken.length + 1 = c.woken.length := by
  have hpos : 0 < c.woken.length := List.length_pos_of_mem hw
  show (c.woken.eraseP p).length + 1 = c.woken.length
  rw [List.length_eraseP_of_mem hw hp]
  omega

/-! ## Waiters -/

/-- One more, who may be anywhere in the list. -/
theorem waiters_sleep (c : Cond ω) (w : ω) : (c.sleep w).waiters.Perm (w :: c.waiters) := by
  show (c.asleep ++ [w] ++ c.woken).Perm (w :: (c.asleep ++ c.woken))
  rw [List.append_assoc]
  exact List.perm_middle

theorem waiters_wake (c : Cond ω) (p : ω → Bool) : (c.wake p).waiters.Perm c.waiters := by
  show (c.asleep.filter (!p ·) ++ (c.woken ++ c.asleep.filter p)).Perm (c.asleep ++ c.woken)
  have hsplit : (c.asleep.filter (!p ·) ++ c.asleep.filter p).Perm c.asleep :=
    List.perm_append_comm.trans (List.filter_append_perm p c.asleep)
  calc c.asleep.filter (!p ·) ++ (c.woken ++ c.asleep.filter p)
      |>.Perm (c.asleep.filter (!p ·) ++ (c.asleep.filter p ++ c.woken)) := List.perm_append_comm.append_left _
    _ = c.asleep.filter (!p ·) ++ c.asleep.filter p ++ c.woken := (List.append_assoc ..).symm
    _ |>.Perm (c.asleep ++ c.woken) := hsplit.append_right _

theorem waiters_signal (c : Cond ω) (p : ω → Bool) : (c.signal p).waiters.Perm c.waiters := by
  unfold Cond.signal
  split
  · exact waiters_wake c p
  · cases hs : c.asleep with
    | nil => exact List.Perm.refl _
    | cons w rest =>
      show (rest ++ (c.woken ++ [w])).Perm c.waiters
      rw [Cond.waiters, hs, ← List.append_assoc]
      exact List.perm_append_singleton w (rest ++ c.woken)

/-- The one that resumes is gone, once. -/
theorem waiters_resume {w : ω} {p : ω → Bool} (hw : w ∈ c.woken) (hp : p w = true) :
    ∃ v, p v = true ∧ c.waiters.Perm (v :: (c.resume p).waiters) := by
  obtain ⟨v, front, back, -, hv, hsplit, herase⟩ := List.exists_of_eraseP hw hp
  refine ⟨v, hv, ?_⟩
  show (c.asleep ++ c.woken).Perm (v :: (c.asleep ++ c.woken.eraseP p))
  rw [herase, hsplit, ← List.append_assoc, ← List.append_assoc]
  exact List.perm_middle

/-- Who resumes was woken before: waking others meanwhile makes no difference. -/
theorem wake_resume {w : ω} {p r : ω → Bool} (hw : w ∈ c.woken) (hr : r w = true) :
    (c.resume r).wake p = (c.wake p).resume r := by
  show (⟨_, _⟩ : Cond ω) = ⟨_, _⟩
  rw [Cond.resume, Cond.wake, List.eraseP_append_left hr _ hw]

end Lib.CondVar
