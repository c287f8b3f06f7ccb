/-
  RabbitMQ.Lib.Wildcard — patterns with wildcards over lists of words.

  A pattern is a list of parts: a word, which matches itself; `one`, which matches any one
  word; `many`, which matches any number of words. `Matches` is the relation, `matchWords`
  decides it (`matchWords_iff`), and is a recursion on the pattern: `many` tries every end
  of the list.

  Every pattern matches the words got by filling its wildcards in (`matches_filled`); where
  the filling is not how the wildcards are spelled, these are not the words of the pattern
  as it is spelled (`fill_differs`). Words are what a list is split into at a separator.
-/

import Mathlib.Data.List.Infix

namespace Lib.Wildcard

variable {ω : Type}

inductive Part (ω : Type) where
  | word (w : ω)
  | one
  | many
  deriving DecidableEq, Repr

inductive Matches : List (Part ω) → List ω → Prop
  | nil : Matches [] []
  | word {ps : List (Part ω)} {ws : List ω} (w : ω) : Matches ps ws → Matches (.word w :: ps) (w :: ws)
  | one {ps : List (Part ω)} {ws : List ω} (w : ω) : Matches ps ws → Matches (.one :: ps) (w :: ws)
  | none {ps : List (Part ω)} {ws : List ω} : Matches ps ws → Matches (.many :: ps) ws
  | more {ps : List (Part ω)} {ws : List ω} (w : ω) : Matches (.many :: ps) ws → Matches (.many :: ps) (w :: ws)

/-! ## Deciding -/

def matchWords [DecidableEq ω] : List (Part ω) → List ω → Bool
  | [], ws => ws.isEmpty
  | .word w :: ps, ws => match ws with
    | [] => false
    | v :: ws => w == v && matchWords ps ws
  | .one :: ps, ws => match ws with
    | [] => false
    | _ :: ws => matchWords ps ws
  | .many :: ps, ws => ws.tails.any (matchWords ps)

theorem matches_many_iff {ps : List (Part ω)} {ws : List ω} :
    Matches (.many :: ps) ws ↔ ∃ vs, vs <:+ ws ∧ Matches ps vs := by
  constructor
  · intro h
    induction ws with
    | nil =>
      cases h with
      | none h => exact ⟨[], List.suffix_refl [], h⟩
    | cons w ws ih =>
      cases h with
      | none h => exact ⟨w :: ws, List.suffix_refl _, h⟩
      | more _ h =>
        obtain ⟨vs, hvs, h⟩ := ih h
        exact ⟨vs, hvs.trans (List.suffix_cons w ws), h⟩
  · rintro ⟨vs, ⟨us, rfl⟩, h⟩
    induction us with
    | nil => exact .none h
    | cons u us ih => exact .more u ih

theorem matchWords_iff [DecidableEq ω] {ps : List (Part ω)} {ws : List ω} : matchWords ps ws = true ↔ Matches ps ws := by
  induction ps generalizing ws with
  | nil =>
    rw [matchWords, List.isEmpty_iff]
    constructor
    · rintro rfl
      exact .nil
    · rintro ⟨⟩
      rfl
  | cons p ps ih =>
    cases p with
    | word w =>
      cases ws with
      | nil => exact ⟨fun h => (Bool.false_ne_true h).elim, fun h => by cases h⟩
      | cons v ws =>
        rw [matchWords, Bool.and_eq_true, beq_iff_eq, ih]
        constructor
        · rintro ⟨rfl, h⟩
          exact .word w h
        · rintro ⟨⟩
          exact ⟨rfl, by assumption⟩
    | one =>
      cases ws with
      | nil => exact ⟨fun h => (Bool.false_ne_true h).elim, fun h => by cases h⟩
      | cons v ws =>
        rw [matchWords, ih]
        constructor
        · exact .one v
        · rintro ⟨⟩
          assumption
    | many =>
      rw [matchWords, List.any_eq_true, matches_many_iff]
      simp only [List.mem_tails, ih]

instance [DecidableEq ω] (ps : List (Part ω)) (ws : List ω) : Decidable (Matches ps ws) :=
  decidable_of_iff _ matchWords_iff

/-! ## Patterns of one kind -/

theorem matches_words {us ws : List ω} : Matches (us.map .word) ws ↔ us = ws := by
  induction us generalizing ws with
  | nil =>
    constructor
    · rintro ⟨⟩
      rfl
    · rintro rfl
      exact .nil
  | cons u us ih =>
    constructor
    · intro h
      cases h with
      | word _ h => rw [ih.mp h]
    · rintro rfl
      exact .word u (ih.mpr rfl)

theorem matches_many (ws : List ω) : Matches [.many] ws :=
  matches_many_iff.mpr ⟨[], List.nil_suffix, .nil⟩

theorem matches_one {ws : List ω} : Matches [.one] ws ↔ ∃ w, ws = [w] := by
  constructor
  · intro h
    cases h with
    | one w h =>
      cases h
      exact ⟨w, rfl⟩
  · rintro ⟨w, rfl⟩
    exact .one w .nil

/-! ## Filling the wildcards in -/

def fill (d : ω) : Part ω → ω
  | .word w => w
  | .one | .many => d

/-- Any word in place of each wildcard. -/
theorem matches_filled {f : Part ω → ω} (hf : ∀ w, f (.word w) = w) (ps : List (Part ω)) : Matches ps (ps.map f) := by
  induction ps with
  | nil => exact .nil
  | cons p ps ih =>
    cases p with
    | word w =>
      rw [List.map_cons, hf]
      exact .word w ih
    | one => exact .one _ ih
    | many => exact .more _ (.none ih)

/-- `spell` is how a part is written. -/
theorem fill_differs {d : ω} {spell : Part ω → ω} (hone : spell .one ≠ d) (hmany : spell .many ≠ d) {ps : List (Part ω)}
    (h : .one ∈ ps ∨ .many ∈ ps) : ps.map (fill d) ≠ ps.map spell := by
  intro heq
  have hall := List.map_inj_left.mp heq
  rcases h with h | h
  · exact hone (hall .one h).symm
  · exact hmany (hall .many h).symm

/-! ## Words -/

variable {α : Type}

theorem mem_intercalate {sep x : α} {ws : List (List α)} (h : x ∈ [sep].intercalate ws) : x = sep ∨ ∃ w ∈ ws, x ∈ w := by
  induction ws with
  | nil => simp at h
  | cons w ws ih =>
    cases ws with
    | nil => exact Or.inr ⟨w, List.mem_cons_self, by simpa using h⟩
    | cons v vs =>
      rw [List.intercalate_cons_cons, List.mem_append, List.mem_append, List.mem_singleton] at h
      rcases h with (hw | hsep) | h
      · exact Or.inr ⟨w, List.mem_cons_self, hw⟩
      · exact Or.inl hsep
      · rcases ih h with hsep | ⟨u, hu, hx⟩
        · exact Or.inl hsep
        · exact Or.inr ⟨u, List.mem_cons_of_mem w hu, hx⟩

variable [DecidableEq α]

theorem mem_splitOn {sep x : α} {bs w : List α} (hw : w ∈ bs.splitOn sep) (hx : x ∈ w) : x ∈ bs ∧ x ≠ sep := by
  induction bs generalizing w with
  | nil =>
    rw [List.splitOn_nil, List.mem_singleton] at hw
    rw [hw] at hx
    cases hx
  | cons b bs ih =>
    rw [List.splitOn_cons_eq_if_modifyHead] at hw
    split at hw
    · rcases List.mem_cons.mp hw with rfl | hw
      · cases hx
      · exact ⟨List.mem_cons_of_mem b (ih hw hx).1, (ih hw hx).2⟩
    · rename_i hb
      obtain ⟨v, vs, e⟩ := List.exists_cons_of_ne_nil (List.splitOn_ne_nil sep bs)
      rw [e] at ih hw
      rcases List.mem_cons.mp hw with rfl | hw
      · rcases List.mem_cons.mp hx with rfl | hx
        · exact ⟨List.mem_cons_self, by simpa using hb⟩
        · obtain ⟨hmem, hne⟩ := ih List.mem_cons_self hx
          exact ⟨List.mem_cons_of_mem b hmem, hne⟩
      · obtain ⟨hmem, hne⟩ := ih (List.mem_cons_of_mem v hw) hx
        exact ⟨List.mem_cons_of_mem b hmem, hne⟩

theorem splitOn_injective {sep : α} {as bs : List α} (h : as.splitOn sep = bs.splitOn sep) : as = bs := by
  have e : [sep].intercalate (as.splitOn sep) = as := List.intercalate_splitOn sep
  rw [← e, h, List.intercalate_splitOn]

/-- One word: no separator. -/
theorem splitOn_single_iff {sep : α} {bs : List α} : (∃ w, bs.splitOn sep = [w]) ↔ sep ∉ bs := by
  constructor
  · rintro ⟨w, e⟩ hsep
    have hbs : [sep].intercalate (bs.splitOn sep) = bs := List.intercalate_splitOn sep
    rw [e, List.intercalate_singleton] at hbs
    have hw : w ∈ bs.splitOn sep := by rw [e]; exact List.mem_singleton_self w
    exact (mem_splitOn hw (hbs ▸ hsep)).2 rfl
  · exact fun h => ⟨bs, List.splitOn_eq_singleton h⟩

end Lib.Wildcard
