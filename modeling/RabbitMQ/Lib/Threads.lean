/-
  RabbitMQ.Lib.Threads — threads of one kind, numbered in the order they are created.

  A thread's tag is given to it when it is created; its place changes with its steps. `ended`
  is the place a thread is at when it has returned, and a number not given out yet is at it
  too.
-/

import Mathlib.Logic.Function.Basic

namespace Lib

structure Threads (τ π : Type) where
  tag : Nat → τ
  place : Nat → π
  count : Nat

namespace Threads

variable {τ π : Type}

def spawn (ts : Threads τ π) (a : τ) (p : π) : Threads τ π where
  tag := Function.update ts.tag ts.count a
  place := Function.update ts.place ts.count p
  count := ts.count + 1

def go (ts : Threads τ π) (k : Nat) (p : π) : Threads τ π := { ts with place := Function.update ts.place k p }

def AllOver (ended : π) (ts : Threads τ π) : Prop := ∀ k, ts.place k = ended

/-- Of two threads that have not returned, one is the other. -/
def AtMostOne (ended : π) (ts : Threads τ π) : Prop := ∀ i j, ts.place i ≠ ended → ts.place j ≠ ended → i = j

variable {ts : Threads τ π} {ended p : π} {a : τ} {j k : Nat}

@[simp] theorem go_place_self : (ts.go k p).place k = p := Function.update_self ..

theorem go_place_of_ne (h : j ≠ k) : (ts.go k p).place j = ts.place j := Function.update_of_ne h ..

@[simp] theorem spawn_tag_self : (ts.spawn a p).tag ts.count = a := Function.update_self ..

theorem spawn_place_of_ne (h : j ≠ ts.count) : (ts.spawn a p).place j = ts.place j := Function.update_of_ne h ..

theorem spawn_tag_of_ne (h : j ≠ ts.count) : (ts.spawn a p).tag j = ts.tag j := Function.update_of_ne h ..

/-- A step of a thread brings no other back. -/
theorem of_go (hk : ts.place k ≠ ended) (hj : (ts.go k p).place j ≠ ended) : ts.place j ≠ ended := by
  by_cases h : j = k
  · subst h
    exact hk
  · rwa [go_place_of_ne h] at hj

theorem AtMostOne.go (h : ts.AtMostOne ended) (hk : ts.place k ≠ ended) : (ts.go k p).AtMostOne ended :=
  fun _ _ hi hj => h _ _ (of_go hk hi) (of_go hk hj)

theorem AllOver.only_spawn (h : ts.AllOver ended) (hj : (ts.spawn a p).place j ≠ ended) : j = ts.count := by
  by_contra hne
  rw [spawn_place_of_ne hne] at hj
  exact hj (h j)

theorem AllOver.spawn (h : ts.AllOver ended) : (ts.spawn a p).AtMostOne ended :=
  fun _ _ hi hj => (h.only_spawn hi).trans (h.only_spawn hj).symm

end Threads

end Lib
