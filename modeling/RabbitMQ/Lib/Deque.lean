/-
  RabbitMQ.Lib.Deque — a bounded double-ended queue and its runs.

  `Steps cap r ops r'`: from the list `r` the operations `ops` are all possible, in order,
  within `cap` elements, and leave `r'`. With nothing pushed at the front the deque is
  first-in first-out (`fifo`): what was there and what was pushed is, in order, what was
  popped and what is left.
-/

import Mathlib.Data.List.Basic

namespace Lib.Deque

variable {α : Type}

inductive Op (α : Type) where
  | pushBack (a : α)
  | popFront (a : α)
  | pushFront (a : α)
  deriving DecidableEq, Repr

inductive Steps (cap : Nat) : List α → List (Op α) → List α → Prop
  | nil (r : List α) : Steps cap r [] r
  | pushBack {r r' : List α} {a : α} {ops : List (Op α)} : r.length < cap → Steps cap (r ++ [a]) ops r' →
      Steps cap r (.pushBack a :: ops) r'
  | popFront {r r' : List α} {a : α} {ops : List (Op α)} : Steps cap r ops r' →
      Steps cap (a :: r) (.popFront a :: ops) r'
  | pushFront {r r' : List α} {a : α} {ops : List (Op α)} : r.length < cap → Steps cap (a :: r) ops r' →
      Steps cap r (.pushFront a :: ops) r'

def pushed (ops : List (Op α)) : List α := ops.filterMap fun | .pushBack a => some a | _ => none

def popped (ops : List (Op α)) : List α := ops.filterMap fun | .popFront a => some a | _ => none

/-- What was pushed at the front. -/
def returned (ops : List (Op α)) : List α := ops.filterMap fun | .pushFront a => some a | _ => none

@[simp] theorem pushed_append (a b : List (Op α)) : pushed (a ++ b) = pushed a ++ pushed b := by simp [pushed]
@[simp] theorem popped_append (a b : List (Op α)) : popped (a ++ b) = popped a ++ popped b := by simp [popped]
@[simp] theorem returned_append (a b : List (Op α)) : returned (a ++ b) = returned a ++ returned b := by
  simp [returned]

theorem steps_append {cap : Nat} {r s t : List α} {a b : List (Op α)} (h1 : Steps cap r a s) (h2 : Steps cap s b t) :
    Steps cap r (a ++ b) t := by
  induction h1 with
  | nil => exact h2
  | pushBack hr _ ih => exact .pushBack hr (ih h2)
  | popFront _ ih => exact .popFront (ih h2)
  | pushFront hr _ ih => exact .pushFront hr (ih h2)

theorem steps_pushFronts {cap : Nat} (l r : List α) (h : l.length + r.length ≤ cap) :
    Steps cap r (l.map .pushFront) (l.reverse ++ r) := by
  induction l generalizing r with
  | nil => exact .nil r
  | cons a l ih =>
    have hl : l.length + (a :: r).length ≤ cap := by simp only [List.length_cons] at h ⊢; omega
    have := ih (a :: r) hl
    rw [List.reverse_cons, List.append_assoc]
    exact .pushFront (by simp only [List.length_cons] at h; omega) this

theorem steps_bounded {cap : Nat} {r r' : List α} {ops : List (Op α)} (h : Steps cap r ops r') (hr : r.length ≤ cap) :
    r'.length ≤ cap := by
  induction h with
  | nil => exact hr
  | pushBack hlt _ ih => exact ih (by simp; omega)
  | popFront _ ih => exact ih (by simp at hr; omega)
  | pushFront hlt _ ih => exact ih (by simp; omega)

theorem fifo {cap : Nat} {r r' : List α} {ops : List (Op α)} (h : Steps cap r ops r') (hn : returned ops = []) :
    r ++ pushed ops = popped ops ++ r' := by
  induction h with
  | nil => simp [pushed, popped]
  | pushBack _ _ ih =>
    have := ih (by simpa [returned] using hn)
    simpa [pushed, popped] using this
  | popFront _ ih =>
    have := ih (by simpa [returned] using hn)
    simpa [pushed, popped] using this
  | pushFront => simp [returned] at hn

/-- From an empty deque, without pushes at the front, what comes out is a prefix of what
    went in. -/
theorem popped_prefix {cap : Nat} {r' : List α} {ops : List (Op α)} (h : Steps cap [] ops r')
    (hn : returned ops = []) : popped ops <+: pushed ops :=
  ⟨r', (fifo h hn).symm⟩

end Lib.Deque
