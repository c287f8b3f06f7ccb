/-
  RabbitMQ.Lib.Directory — a table of handles looked up by name.

  A directory is a list of handles and the name each has, if any; `lookup` finds the first
  handle of a name. In a sound one (`Sound`) every handle has a name, no name is there
  twice, and all handles are below a bound, so that the bound is a handle not yet used. Then
  names and handles are interchangeable (`lookup_iff`). An entry under a name not found
  keeps it sound (`Sound.add`), and what was found stays found (`lookup_extends`).
-/

import Mathlib.Data.List.Nodup

namespace Lib

structure Directory (κ : Type) where
  table : List Nat
  name : Nat → Option κ

namespace Directory

variable {κ : Type} {d d' d'' : Directory κ} {bound bound' handle : Nat} {k : κ}

structure Sound (d : Directory κ) (bound : Nat) : Prop where
  named : ∀ h ∈ d.table, d.name h ≠ none
  distinct : (d.table.map d.name).Nodup
  below : ∀ h ∈ d.table, h < bound

theorem sound_empty (name : Nat → Option κ) (bound : Nat) : (⟨[], name⟩ : Directory κ).Sound bound :=
  ⟨fun _ h => absurd h List.not_mem_nil, List.nodup_nil, fun _ h => absurd h List.not_mem_nil⟩

theorem Sound.mono (h : d.Sound bound) (hle : bound ≤ bound') : d.Sound bound' :=
  ⟨h.named, h.distinct, fun g hg => Nat.lt_of_lt_of_le (h.below g hg) hle⟩

/-- One handle for a name. -/
theorem Sound.one (h : d.Sound bound) {a b : Nat} (ha : a ∈ d.table) (hb : b ∈ d.table) (hab : d.name a = d.name b) : a = b :=
  List.inj_on_of_nodup_map h.distinct ha hb hab

/-! ## Looking up -/

variable [DecidableEq κ]

def lookup (d : Directory κ) (k : κ) : Option Nat := d.table.find? fun h => d.name h = some k

theorem lookup_cons {table : List Nat} {name : Nat → Option κ} :
    (⟨handle :: table, name⟩ : Directory κ).lookup k =
      if name handle = some k then some handle else (⟨table, name⟩ : Directory κ).lookup k := by
  unfold lookup
  rw [List.find?_cons]
  by_cases hk : name handle = some k
  · simp [hk]
  · simp [hk]

theorem lookup_some (h : d.lookup k = some handle) : handle ∈ d.table ∧ d.name handle = some k :=
  ⟨List.mem_of_find?_eq_some h, by simpa using List.find?_some h⟩

theorem lookup_none (h : d.lookup k = none) : ∀ g ∈ d.table, d.name g ≠ some k := by
  intro g hg
  simpa using List.find?_eq_none.mp h g hg

theorem lookup_iff (hd : d.Sound bound) : d.lookup k = some handle ↔ handle ∈ d.table ∧ d.name handle = some k := by
  refine ⟨lookup_some, ?_⟩
  rintro ⟨hmem, hname⟩
  cases e : d.lookup k with
  | none => exact absurd hname (lookup_none e handle hmem)
  | some g =>
    obtain ⟨hg, hgname⟩ := lookup_some e
    rw [hd.one hg hmem (hgname.trans hname.symm)]

/-! ## Growing -/

/-- The entries of `d` are as they were, with others after them. -/
structure Extends (d d' : Directory κ) : Prop where
  table : d.table <+: d'.table
  names : ∀ h ∈ d.table, d'.name h = d.name h

omit [DecidableEq κ] in
theorem Extends.refl (d : Directory κ) : d.Extends d := ⟨List.prefix_rfl, fun _ _ => rfl⟩

omit [DecidableEq κ] in
theorem Extends.trans (h : d.Extends d') (h' : d'.Extends d'') : d.Extends d'' :=
  ⟨h.table.trans h'.table, fun g hg => (h'.names g (h.table.subset hg)).trans (h.names g hg)⟩

theorem lookup_extends (hd : d'.Sound bound) (h : d.Extends d') (hk : d.lookup k = some handle) : d'.lookup k = some handle := by
  obtain ⟨hmem, hname⟩ := lookup_some hk
  exact (lookup_iff hd).mpr ⟨h.table.subset hmem, (h.names handle hmem).trans hname⟩

def add (d : Directory κ) (handle : Nat) (k : κ) : Directory κ where
  table := d.table ++ [handle]
  name := Function.update d.name handle (some k)

omit [DecidableEq κ] in
/-- Where the names are those of records, the record added has the new name. -/
theorem update_add {α : Type} {names : α → Option κ} {f : Nat → α} {x : α} {table : List Nat} (hx : names x = some k) :
    (⟨table ++ [handle], fun h => names (Function.update f handle x h)⟩ : Directory κ) =
      (⟨table, fun h => names (f h)⟩ : Directory κ).add handle k := by
  refine congrArg (Directory.mk _) (funext fun h => ?_)
  rw [← hx]
  exact Function.apply_update (fun _ => names) f handle x h

omit [DecidableEq κ] in
theorem add_name_old (hd : d.Sound bound) (hnew : bound ≤ handle) {g : Nat} (hg : g ∈ d.table) :
    (d.add handle k).name g = d.name g := by
  have hlt := hd.below g hg
  exact Function.update_of_ne (by omega) _ _

omit [DecidableEq κ] in
theorem extends_add (hd : d.Sound bound) (hnew : bound ≤ handle) : d.Extends (d.add handle k) :=
  ⟨List.prefix_append _ _, fun _ hg => add_name_old hd hnew hg⟩

theorem Sound.add (hd : d.Sound bound) (hk : d.lookup k = none) (hnew : bound ≤ handle) (hlt : handle < bound') :
    (d.add handle k).Sound bound' := by
  have hself : (d.add handle k).name handle = some k := Function.update_self _ _ _
  have hold : d.table.map (d.add handle k).name = d.table.map d.name :=
    List.map_congr_left fun g hg => add_name_old hd hnew hg
  refine ⟨fun g hg => ?_, ?_, fun g hg => ?_⟩
  · rcases List.mem_append.mp hg with hg | hg
    · rw [add_name_old hd hnew hg]
      exact hd.named g hg
    · rw [List.mem_singleton.mp hg, hself]
      exact Option.some_ne_none k
  · show ((d.table ++ [handle]).map (d.add handle k).name).Nodup
    rw [List.map_append, hold, List.map_singleton, hself, List.nodup_append]
    refine ⟨hd.distinct, List.nodup_singleton _, ?_⟩
    intro x hx y hy
    obtain ⟨g, hg, rfl⟩ := List.mem_map.mp hx
    rw [List.mem_singleton.mp hy]
    exact lookup_none hk g hg
  · rcases List.mem_append.mp hg with hg | hg
    · have := hd.below g hg
      omega
    · rw [List.mem_singleton.mp hg]
      exact hlt

theorem lookup_add (hd : d.Sound bound) (hk : d.lookup k = none) (hnew : bound ≤ handle) :
    (d.add handle k).lookup k = some handle := by
  have hsound : (d.add handle k).Sound (handle + 1) := hd.add hk hnew (Nat.lt_succ_self handle)
  exact (lookup_iff hsound).mpr ⟨List.mem_append_right _ (List.mem_singleton_self handle), Function.update_self _ _ _⟩

end Directory

end Lib
