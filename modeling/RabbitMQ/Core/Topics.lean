/-
  RabbitMQ.Core.Topics — `match_topic` against the semantics its comment gives.

  Pattern and topic are lists of words separated by dots; "*" stands for one word, "#" for
  any number (`Documented`). The function knows the two wildcards only where the pattern is
  nothing else, and compares all other patterns as they are written. So it never matches
  what it should not (`match_sound`), and it matches all it should exactly for the patterns
  "#" and "*" and those without a wildcard (`topics_match_iff`). The binding the broker
  makes when it starts is not one of them (`the_first_binding_misses_its_topics`).
-/

import RabbitMQ.Core.Broker
import RabbitMQ.Lib.Wildcard

namespace RabbitMQ.Core

open Lib
open Lib.Wildcard (fill)

/-! ## The documented semantics -/

/-- The words between the dots. -/
def topicWords (s : CString) : List Bytes := s.bytes.splitOn 46

def partOf (w : Bytes) : Wildcard.Part Bytes := if w = [42] then .one else if w = [35] then .many else .word w

def spelling : Wildcard.Part Bytes → Bytes
  | .one => [42]
  | .many => [35]
  | .word w => w

def Documented (pattern topic : CString) : Prop := Wildcard.Matches ((topicWords pattern).map partOf) (topicWords topic)

instance (pattern topic : CString) : Decidable (Documented pattern topic) := inferInstanceAs (Decidable (Wildcard.Matches _ _))

/-- "#", "*", or no wildcard. -/
def Plain (pattern : CString) : Prop :=
  pattern.bytes = [35] ∨ pattern.bytes = [42] ∨ ∀ w ∈ topicWords pattern, w ≠ [42] ∧ w ≠ [35]

theorem spelling_partOf (w : Bytes) : spelling (partOf w) = w := by
  unfold partOf
  split
  · rename_i h
    exact h.symm
  · split
    · rename_i h
      exact h.symm
    · rfl

theorem partOf_word {w : Bytes} (h : w ≠ [42] ∧ w ≠ [35]) : partOf w = .word w := by
  rw [partOf, if_neg h.1, if_neg h.2]

theorem topicWords_single {s : CString} {w : Bytes} (hs : s.bytes = w) (h : 46 ∉ w) : topicWords s = [w] := by
  rw [topicWords, hs]
  exact List.splitOn_eq_singleton h

theorem spelled_words (s : CString) : ((topicWords s).map partOf).map spelling = topicWords s := by
  rw [List.map_map]
  exact (List.map_congr_left fun w _ => spelling_partOf w).trans (List.map_id _)

/-- A topic spelled like the pattern. -/
theorem documented_self (s : CString) : Documented s s := by
  have h := Wildcard.matches_filled (fun _ => rfl : ∀ w, spelling (.word w) = w) ((topicWords s).map partOf)
  rwa [spelled_words] at h

theorem documented_hash {pattern : CString} (h : pattern.bytes = [35]) (topic : CString) : Documented pattern topic := by
  rw [Documented, topicWords_single h (by decide)]
  exact Wildcard.matches_many _

theorem documented_star {pattern : CString} (h : pattern.bytes = [42]) (topic : CString) :
    Documented pattern topic ↔ 46 ∉ topic.bytes := by
  rw [Documented, topicWords_single h (by decide)]
  exact Wildcard.matches_one.trans Wildcard.splitOn_single_iff

theorem documented_words {pattern : CString} (h : ∀ w ∈ topicWords pattern, w ≠ [42] ∧ w ≠ [35]) (topic : CString) :
    Documented pattern topic ↔ pattern = topic := by
  have hparts : (topicWords pattern).map partOf = (topicWords pattern).map .word :=
    List.map_congr_left fun w hw => partOf_word (h w hw)
  rw [Documented, hparts, Wildcard.matches_words]
  exact ⟨fun e => CString.ext (Wildcard.splitOn_injective e), fun e => by rw [e]⟩

/-! ## What `match_topic` accepts -/

theorem matchTopic_iff (pattern topic : CString) :
    matchTopic pattern (some topic) = some true ↔
      pattern.bytes = [35] ∨ (pattern.bytes = [42] ∧ 46 ∉ topic.bytes) ∨ pattern = topic := by
  unfold matchTopic
  by_cases hhash : pattern.bytes = [35]
  · rw [if_pos hhash]
    exact iff_of_true rfl (Or.inl hhash)
  rw [if_neg hhash]
  by_cases hstar : pattern.bytes = [42]
  · rw [if_pos hstar, Option.map_some, Option.some.injEq, decide_eq_true_iff]
    constructor
    · exact fun h => Or.inr (Or.inl ⟨hstar, h⟩)
    · rintro (h | h | rfl)
      · exact absurd h hhash
      · exact h.2
      · rw [hstar]
        decide
  · rw [if_neg hstar]
    have hcmp : strcmpEq (some pattern) (some topic) = some true ↔ pattern = topic := by simp [strcmpEq]
    rw [hcmp]
    constructor
    · exact fun h => Or.inr (Or.inr h)
    · rintro (h | h | h)
      · exact absurd h hhash
      · exact absurd h.1 hstar
      · exact h

/-- A topic taken is a topic the pattern stands for. -/
theorem match_sound {pattern topic : CString} (h : matchTopic pattern (some topic) = some true) : Documented pattern topic := by
  rcases (matchTopic_iff pattern topic).mp h with hhash | ⟨hstar, hdot⟩ | rfl
  · exact documented_hash hhash topic
  · exact (documented_star hstar topic).mpr hdot
  · exact documented_self pattern

theorem plain_matches {pattern : CString} (h : Plain pattern) (topic : CString) :
    matchTopic pattern (some topic) = some true ↔ Documented pattern topic := by
  refine ⟨match_sound, fun hd => (matchTopic_iff pattern topic).mpr ?_⟩
  rcases h with hhash | hstar | hwords
  · exact Or.inl hhash
  · exact Or.inr (Or.inl ⟨hstar, (documented_star hstar topic).mp hd⟩)
  · exact Or.inr (Or.inr ((documented_words hwords topic).mp hd))

/-! ## Where it falls short -/

/-- What is in a word filled in. -/
theorem mem_filled {pattern : CString} {v : Bytes} (hv : v ∈ ((topicWords pattern).map partOf).map (fill [97])) {x : UInt8}
    (hx : x ∈ v) : x = 97 ∨ (x ∈ pattern.bytes ∧ x ≠ 46) := by
  obtain ⟨p, hp, rfl⟩ := List.mem_map.mp hv
  obtain ⟨w, hw, rfl⟩ := List.mem_map.mp hp
  unfold partOf at hx
  split at hx
  · exact Or.inl (List.mem_singleton.mp hx)
  · split at hx
    · exact Or.inl (List.mem_singleton.mp hx)
    · exact Or.inr (Wildcard.mem_splitOn hw hx)

/-- The pattern with "a" for each wildcard. -/
def filledIn (pattern : CString) : CString where
  bytes := [46].intercalate (((topicWords pattern).map partOf).map (fill [97]))
  nulFree := by
    intro h
    rcases Wildcard.mem_intercalate h with h | ⟨v, hv, h0⟩
    · exact absurd h (by decide)
    · rcases mem_filled hv h0 with h | h
      · exact absurd h (by decide)
      · exact pattern.nulFree h.1

theorem filledIn_words (pattern : CString) :
    topicWords (filledIn pattern) = ((topicWords pattern).map partOf).map (fill [97]) := by
  refine List.splitOn_intercalate 46 (fun v hv h46 => ?_) ?_
  · rcases mem_filled hv h46 with h | h
    · exact absurd h (by decide)
    · exact h.2 rfl
  · intro hnil
    rw [List.map_eq_nil_iff, List.map_eq_nil_iff] at hnil
    exact List.splitOn_ne_nil 46 pattern.bytes hnil

theorem filledIn_documented (pattern : CString) : Documented pattern (filledIn pattern) := by
  rw [Documented, filledIn_words]
  exact Wildcard.matches_filled (fun _ => rfl) _

/-- A wildcard word. -/
theorem wildcard_part {pattern : CString} (h : ¬ ∀ w ∈ topicWords pattern, w ≠ [42] ∧ w ≠ [35]) :
    .one ∈ (topicWords pattern).map partOf ∨ .many ∈ (topicWords pattern).map partOf := by
  obtain ⟨w, hw, hwild⟩ : ∃ w ∈ topicWords pattern, w = [42] ∨ w = [35] := by
    by_contra hno
    exact h fun w hw => ⟨fun e => hno ⟨w, hw, Or.inl e⟩, fun e => hno ⟨w, hw, Or.inr e⟩⟩
  rcases hwild with rfl | rfl
  · exact Or.inl (List.mem_map.mpr ⟨[42], hw, rfl⟩)
  · exact Or.inr (List.mem_map.mpr ⟨[35], hw, rfl⟩)

theorem filledIn_nonempty {pattern : CString} (h : .one ∈ (topicWords pattern).map partOf ∨ .many ∈ (topicWords pattern).map partOf) :
    (filledIn pattern).bytes ≠ [] := by
  intro hnil
  have hwords := filledIn_words pattern
  rw [topicWords, hnil, List.splitOn_nil] at hwords
  have hfilled : [97] ∈ ((topicWords pattern).map partOf).map (fill [97]) := by
    rcases h with h | h
    · exact List.mem_map.mpr ⟨_, h, rfl⟩
    · exact List.mem_map.mpr ⟨_, h, rfl⟩
  rw [← hwords, List.mem_singleton] at hfilled
  cases hfilled

/-- It does not match as it is spelled. -/
theorem filledIn_differs {pattern : CString} (h : .one ∈ (topicWords pattern).map partOf ∨ .many ∈ (topicWords pattern).map partOf) :
    pattern ≠ filledIn pattern := by
  intro heq
  have hwords := filledIn_words pattern
  rw [← heq] at hwords
  exact Wildcard.fill_differs (by decide) (by decide) h (hwords.symm.trans (spelled_words pattern).symm)

/-- For all topics at once. -/
theorem topics_match_iff (pattern : CString) :
    (∀ topic : CString, topic.bytes ≠ [] → (matchTopic pattern (some topic) = some true ↔ Documented pattern topic)) ↔
      Plain pattern := by
  refine ⟨fun h => ?_, fun h topic _ => plain_matches h topic⟩
  by_contra hplain
  obtain ⟨hhash, hplain⟩ := not_or.mp hplain
  obtain ⟨hstar, hwords⟩ := not_or.mp hplain
  have hwild := wildcard_part hwords
  have hmatch := (h (filledIn pattern) (filledIn_nonempty hwild)).mpr (filledIn_documented pattern)
  rcases (matchTopic_iff _ _).mp hmatch with e | e | e
  · exact hhash e
  · exact hstar e.1
  · exact filledIn_differs hwild e

/-- "test.#". -/
def testHash : CString := ⟨[116, 101, 115, 116, 46, 35], by decide⟩

/-- "test", "test.a" and "test.a.b". -/
def testTopics : List CString :=
  [⟨[116, 101, 115, 116], by decide⟩, ⟨[116, 101, 115, 116, 46, 97], by decide⟩,
    ⟨[116, 101, 115, 116, 46, 97, 46, 98], by decide⟩]

theorem the_first_binding_misses_its_topics :
    testTopics.map (fun topic => decide (Documented testHash topic)) = [true, true, true] ∧
      testTopics.map (fun topic => matchTopic testHash (some topic)) = [some false, some false, some false] := by
  decide

end RabbitMQ.Core
