/-
  RabbitMQ.Lib.Prog — programs over a state that others share, one access at a time.

  A program returns, or makes one access, which may write the state, and goes on with what
  it saw. `eval` runs it with nothing between its accesses. Under a lock others do nothing
  between them: while the holder of the lock is inside `rest`, what `rest` makes of the
  state as it is now is what its whole program makes of the state it found (`Within`).
  `Always` is about the states a program passes on its way.
-/

import Mathlib.Logic.Function.Basic

namespace Lib

variable {σ α β γ ι κ : Type}

inductive Prog (σ α : Type) where
  | ret (a : α)
  | act (write : σ → σ) (next : σ → Prog σ α)

namespace Prog

def bind : Prog σ α → (α → Prog σ β) → Prog σ β
  | ret a, k => k a
  | act write next, k => act write fun s => (next s).bind k

instance : Monad (Prog σ) where
  pure := ret
  bind := bind

/-- One access that looks. -/
def read (f : σ → α) : Prog σ α := act id fun s => ret (f s)

/-- One access that changes something. -/
def write (f : σ → σ) : Prog σ Unit := act f fun _ => ret ()

def eval : Prog σ α → σ → α × σ
  | ret a, s => (a, s)
  | act write next, s => (next s).eval (write s)

@[simp] theorem eval_ret (a : α) (s : σ) : (ret a : Prog σ α).eval s = (a, s) := rfl

@[simp] theorem eval_act (write : σ → σ) (next : σ → Prog σ α) (s : σ) : (act write next).eval s = (next s).eval (write s) := rfl

@[simp] theorem eval_pure (a : α) (s : σ) : (pure a : Prog σ α).eval s = (a, s) := rfl

theorem eval_bind (p : Prog σ α) (k : α → Prog σ β) (s : σ) : (p >>= k).eval s = (k (p.eval s).1).eval (p.eval s).2 := by
  show (p.bind k).eval s = _
  induction p generalizing s with
  | ret a => rfl
  | act write next ih => exact ih s (write s)

@[simp] theorem eval_read (f : σ → α) (k : α → Prog σ β) (s : σ) : (read f >>= k).eval s = (k (f s)).eval s := rfl

@[simp] theorem eval_write (f : σ → σ) (k : Unit → Prog σ β) (s : σ) : (write f >>= k).eval s = (k ()).eval (f s) := rfl

/-- A choice made on what was seen. -/
@[simp] theorem eval_ite (c : Prop) [Decidable c] (p q : Prog σ α) (s : σ) :
    (if c then p else q).eval s = if c then p.eval s else q.eval s := by
  split
  · rfl
  · rfl

/-- Of every state from `s` to the end. -/
def Always (P : σ → Prop) : Prog σ α → σ → Prop
  | ret _, s => P s
  | act write next, s => P s ∧ (next s).Always P (write s)

variable {P : σ → Prop}

theorem Always.here {p : Prog σ α} {s : σ} (h : p.Always P s) : P s := by
  cases p with
  | ret a => exact h
  | act write next => exact h.1

theorem always_access {write : σ → σ} {next : σ → Prog σ α} {s : σ} (h : (act write next).Always P s) : (next s).Always P (write s) := h.2

/-! ## Under a lock -/

/-- `whole` was entered when the state was `found`; `rest` is what is left of it. -/
def Within (whole : Prog σ α) (found : σ) (rest : Prog σ α) (s : σ) : Prop := rest.eval s = whole.eval found

variable {whole : Prog σ α} {found s : σ}

theorem within_enter (whole : Prog σ α) (s : σ) : Within whole s whole s := rfl

theorem within_access {write : σ → σ} {next : σ → Prog σ α} (h : Within whole found (act write next) s) :
    Within whole found (next s) (write s) := h

/-- At its end the program has done what it does alone. -/
theorem within_done {a : α} (h : Within whole found (ret a) s) : whole.eval found = (a, s) := Eq.symm h

end Prog

end Lib
