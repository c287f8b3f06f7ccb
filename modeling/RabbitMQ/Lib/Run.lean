/-
  RabbitMQ.Lib.Run — runs of a transition function, and runs whose every step meets a
  condition.

  `run step s es` is the state after the events `es`. `Along step ok s es` says that each
  event, in the state it is taken in, meets `ok`. An invariant that every `ok` step keeps
  holds after every such run (`along_inv`). Where only `ok` steps keep it, the runs that hold
  it in every state they reach are exactly these (`along_iff`). Where a step that is not `ok`
  does harm that no later step undoes, every run is of one kind or the other
  (`along_or_harmed`).
-/

import Mathlib.Init

namespace Lib.Run

variable {σ ε : Type} (step : σ → ε → σ)

def run (s : σ) (es : List ε) : σ := es.foldl step s

@[simp] theorem run_nil (s : σ) : run step s [] = s := rfl

@[simp] theorem run_cons (s : σ) (e : ε) (es : List ε) : run step s (e :: es) = run step (step s e) es := rfl

theorem run_append (s : σ) (as bs : List ε) : run step s (as ++ bs) = run step (run step s as) bs := List.foldl_append

def Along (ok : σ → ε → Prop) : σ → List ε → Prop
  | _, [] => True
  | s, e :: es => ok s e ∧ Along ok (step s e) es

instance (ok : σ → ε → Prop) [∀ s e, Decidable (ok s e)] : ∀ (s : σ) (es : List ε), Decidable (Along step ok s es)
  | _, [] => isTrue trivial
  | s, e :: es => @instDecidableAnd _ _ _ (instDecidableAlong ok (step s e) es)

variable {step} {ok : σ → ε → Prop} {Inv : σ → Prop}

theorem along_append {s : σ} {as bs : List ε} :
    Along step ok s (as ++ bs) ↔ Along step ok s as ∧ Along step ok (run step s as) bs := by
  induction as generalizing s with
  | nil => simp [Along]
  | cons e as ih => simp [Along, ih, and_assoc]

theorem along_of_forall {s : σ} {es : List ε} (h : ∀ e ∈ es, ∀ s, ok s e) : Along step ok s es := by
  induction es generalizing s with
  | nil => trivial
  | cons e es ih => exact ⟨h e List.mem_cons_self s, ih fun e' he' => h e' (List.mem_cons_of_mem e he')⟩

theorem along_inv (hstep : ∀ s e, Inv s → ok s e → Inv (step s e)) {s : σ} {es : List ε} (hs : Inv s)
    (h : Along step ok s es) : Inv (run step s es) := by
  induction es generalizing s with
  | nil => exact hs
  | cons e es ih => exact ih (hstep s e hs h.1) h.2

theorem run_inv (hstep : ∀ s e, Inv s → Inv (step s e)) {s : σ} (es : List ε) (hs : Inv s) : Inv (run step s es) := by
  induction es generalizing s with
  | nil => exact hs
  | cons e es ih => exact ih (hstep s e hs)

theorem along_iff {Base : σ → Prop} (hbase : ∀ s e, Base s → Base (step s e))
    (hok : ∀ s e, Base s → Inv s → (ok s e ↔ Inv (step s e))) {s : σ} {es : List ε} (hb : Base s) (hs : Inv s) :
    (∀ as, as <+: es → Inv (run step s as)) ↔ Along step ok s es := by
  induction es generalizing s with
  | nil =>
    refine ⟨fun _ => trivial, fun _ as has => ?_⟩
    rw [List.prefix_nil.mp has]
    exact hs
  | cons e es ih =>
    have hb' := hbase s e hb
    constructor
    · intro h
      have hnext : Inv (step s e) := h [e] (List.prefix_append [e] es)
      refine ⟨(hok s e hb hs).mpr hnext, (ih hb' hnext).mp fun as has => ?_⟩
      exact h (e :: as) ((List.prefix_cons_inj e).mpr has)
    · intro h as has
      have hnext := (hok s e hb hs).mp h.1
      cases as with
      | nil => exact hs
      | cons a as =>
        obtain ⟨rfl, hrest⟩ := List.cons_prefix_cons.mp has
        exact (ih hb' hnext).mpr h.2 as hrest

theorem along_or_harmed {Harmed : σ → Prop} (hstep : ∀ s e, Inv s → ok s e → Inv (step s e))
    (hharm : ∀ s e, Inv s → ¬ ok s e → Harmed (step s e)) (hlasts : ∀ s e, Harmed s → Harmed (step s e)) {s : σ}
    (es : List ε) (hs : Inv s) :
    (Along step ok s es ∧ Inv (run step s es)) ∨ (¬ Along step ok s es ∧ Harmed (run step s es)) := by
  induction es generalizing s with
  | nil => exact Or.inl ⟨trivial, hs⟩
  | cons e es ih =>
    by_cases hok : ok s e
    · rcases ih (hstep s e hs hok) with ⟨halong, hinv⟩ | ⟨halong, hharmed⟩
      · exact Or.inl ⟨⟨hok, halong⟩, hinv⟩
      · exact Or.inr ⟨fun h => halong h.2, hharmed⟩
    · exact Or.inr ⟨fun h => hok h.1, run_inv hlasts es (hharm s e hs hok)⟩

end Lib.Run
