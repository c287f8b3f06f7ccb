/-
  RabbitMQ.Lib.Alloc — an allocator, and who owns what it hands out.

  Requests are numbered; `fails n` says that request `n` is refused, so a theorem over
  every heap is a theorem over every pattern of allocation failures. A pointer is its
  request and the kind of object asked for. The heap keeps what was granted, with its size,
  and every `free`, in order.

  `Ledger h h' kept`: a program that ran from `h` to `h'` freed everything it was granted
  exactly once, but for `kept`, which it still owns, and freed nothing else. A ledger grows
  by a request (`ledger_request`), shrinks by a free of what it keeps (`Ledger.frees`), and
  ledgers of successive programs add up (`Ledger.trans`). Read off the two heaps, it says how
  often each block was freed (`Ledger.accounts`). A block freed twice stays so, whatever comes
  after (`freedTwice_grows`), and no books with it are even (`Accounts.not_freedTwice`).
-/

import Mathlib.Data.List.Perm.Basic
import Mathlib.Data.List.Nodup

namespace Lib.Alloc

variable {κ : Type}

structure Ptr (κ : Type) where
  request : Nat
  kind : κ
  deriving DecidableEq

structure Heap (κ : Type) where
  /-- The number of the next request. -/
  next : Nat
  fails : Nat → Bool
  blocks : List (Ptr κ × Nat)
  freed : List (Ptr κ)

namespace Heap

def request (h : Heap κ) (kind : κ) (n : Nat) : Option (Ptr κ) × Heap κ :=
  if h.fails h.next then (none, { h with next := h.next + 1 })
  else (some ⟨h.next, kind⟩, { h with next := h.next + 1, blocks := h.blocks ++ [(⟨h.next, kind⟩, n)] })

def free (h : Heap κ) (p : Ptr κ) : Heap κ := { h with freed := h.freed ++ [p] }

/-- `free` of several blocks, in order. -/
def frees (h : Heap κ) (ps : List (Ptr κ)) : Heap κ := { h with freed := h.freed ++ ps }

@[simp] theorem frees_freed (h : Heap κ) (ps : List (Ptr κ)) : (h.frees ps).freed = h.freed ++ ps := rfl

/-- No request is refused. -/
def AllGranted (h : Heap κ) : Prop := ∀ n, h.fails n = false

/-- Everything ever granted or freed was asked for. -/
structure Sound (h : Heap κ) : Prop where
  blocks : ∀ b ∈ h.blocks, b.1.request < h.next
  freed : ∀ p ∈ h.freed, p.request < h.next

/-- Of the requests made from `h` to `h'`, one is refused. -/
def Refused (h h' : Heap κ) : Prop := ∃ n ∈ List.range' h.next (h'.next - h.next), h.fails n = true

instance (h h' : Heap κ) : Decidable (h.Refused h') :=
  inferInstanceAs (Decidable (∃ n ∈ List.range' h.next (h'.next - h.next), h.fails n = true))

theorem refused_iff {h h' : Heap κ} : h.Refused h' ↔ ∃ n, h.next ≤ n ∧ n < h'.next ∧ h.fails n = true := by
  refine exists_congr fun n => ?_
  rw [List.mem_range'_1, ← and_assoc]
  exact and_congr_left fun _ => by omega

/-- Of requests made one after the other. -/
theorem refused_trans {h h' h'' : Heap κ} (hfails : h'.fails = h.fails) (hle : h.next ≤ h'.next) (hle' : h'.next ≤ h''.next) :
    h.Refused h'' ↔ h.Refused h' ∨ h'.Refused h'' := by
  simp only [refused_iff, hfails]
  constructor
  · rintro ⟨n, hlow, hhigh, hn⟩
    by_cases hmid : n < h'.next
    · exact Or.inl ⟨n, hlow, hmid, hn⟩
    · exact Or.inr ⟨n, by omega, hhigh, hn⟩
  · rintro (⟨n, hlow, hhigh, hn⟩ | ⟨n, hlow, hhigh, hn⟩)
    · exact ⟨n, hlow, by omega, hn⟩
    · exact ⟨n, by omega, hhigh, hn⟩

theorem not_refused {h h' : Heap κ} (hnext : h'.next = h.next) : ¬ h.Refused h' := by
  rw [refused_iff, hnext]
  rintro ⟨n, hlow, hhigh, -⟩
  omega

theorem AllGranted.not_refused {h : Heap κ} (hg : h.AllGranted) (h' : Heap κ) : ¬ h.Refused h' := by
  rintro ⟨n, -, hn⟩
  rw [hg n] at hn
  cases hn

/-- Of the requests to come, those numbered by `ks` are granted. -/
def Grants (h : Heap κ) (ks : List Nat) : Prop := ∀ k ∈ ks, h.fails (h.next + k) = false

instance (h : Heap κ) (ks : List Nat) : Decidable (h.Grants ks) :=
  inferInstanceAs (Decidable (∀ k ∈ ks, h.fails (h.next + k) = false))

/-- After one more request. -/
theorem grants_request {h : Heap κ} {kind : κ} {n : Nat} {o : Option (Ptr κ)} {h' : Heap κ} (e : h.request kind n = (o, h')) :
    h'.next = h.next + 1 ∧ h'.fails = h.fails ∧ (o.isSome = true ↔ h.fails h.next = false) := by
  unfold request at e
  split at e
  · rename_i hf
    cases e
    exact ⟨rfl, rfl, by simp [hf]⟩
  · rename_i hf
    cases e
    exact ⟨rfl, rfl, by simpa using hf⟩

theorem refused_request {h : Heap κ} {kind : κ} {n : Nat} {o : Option (Ptr κ)} {h' : Heap κ} (e : h.request kind n = (o, h')) :
    h.Refused h' ↔ o = none := by
  obtain ⟨hnext, -, hgranted⟩ := grants_request e
  rw [refused_iff, hnext]
  constructor
  · rintro ⟨m, hlow, hhigh, hm⟩
    obtain rfl : m = h.next := by omega
    by_contra hsome
    rw [hgranted.mp (Option.isSome_iff_ne_none.mpr hsome)] at hm
    cases hm
  · rintro rfl
    refine ⟨h.next, Nat.le_refl _, Nat.lt_succ_self _, ?_⟩
    by_contra hno
    cases hgranted.mpr (by simpa using hno)

end Heap

theorem request_granted {h : Heap κ} (hg : h.AllGranted) (kind : κ) (n : Nat) :
    ∃ p h', h.request kind n = (some p, h') ∧ h'.AllGranted := by
  refine ⟨⟨h.next, kind⟩, { h with next := h.next + 1, blocks := h.blocks ++ [(⟨h.next, kind⟩, n)] }, ?_, hg⟩
  rw [Heap.request, if_neg (by simp [hg h.next])]

/-! ## Ledgers -/

/-- From `h` to `h'`: the blocks `granted`, the frees `gone`, the blocks still `kept`. -/
structure Entry (h h' : Heap κ) (granted : List (Ptr κ × Nat)) (gone kept : List (Ptr κ)) : Prop where
  next : h.next ≤ h'.next
  fails : h'.fails = h.fails
  blocks : h'.blocks = h.blocks ++ granted
  freed : h'.freed = h.freed ++ gone
  perm : (granted.map (·.1)).Perm (gone ++ kept)
  nodup : (granted.map (·.1)).Nodup
  range : ∀ b ∈ granted, h.next ≤ b.1.request ∧ b.1.request < h'.next

def Ledger (h h' : Heap κ) (kept : List (Ptr κ)) : Prop := ∃ granted gone, Entry h h' granted gone kept

theorem ledger_refl (h : Heap κ) : Ledger h h [] :=
  ⟨[], [], Nat.le_refl _, rfl, (List.append_nil _).symm, (List.append_nil _).symm, .nil, List.nodup_nil,
    fun _ hb => absurd hb List.not_mem_nil⟩

theorem ledger_request (h : Heap κ) (kind : κ) (n : Nat) :
    Ledger h (h.request kind n).2 (h.request kind n).1.toList := by
  unfold Heap.request
  by_cases hf : h.fails h.next = true
  · rw [if_pos hf]
    exact ⟨[], [], Nat.le_succ _, rfl, (List.append_nil _).symm, (List.append_nil _).symm, .nil, List.nodup_nil,
      fun _ hb => absurd hb List.not_mem_nil⟩
  · rw [if_neg hf]
    refine ⟨[(⟨h.next, kind⟩, n)], [], Nat.le_succ _, rfl, rfl, (List.append_nil _).symm, .refl _,
      List.nodup_singleton _, fun b hb => ?_⟩
    rw [List.mem_singleton.mp hb]
    exact ⟨Nat.le_refl _, Nat.lt_succ_self _⟩

theorem Entry.trans {h h' h'' : Heap κ} {g g' : List (Ptr κ × Nat)} {f f' k k' : List (Ptr κ)}
    (h1 : Entry h h' g f k) (h2 : Entry h' h'' g' f' k') : Entry h h'' (g ++ g') (f ++ f') (k ++ k') where
  next := Nat.le_trans h1.next h2.next
  fails := h2.fails.trans h1.fails
  blocks := by rw [h2.blocks, h1.blocks, List.append_assoc]
  freed := by rw [h2.freed, h1.freed, List.append_assoc]
  perm := by
    rw [List.map_append]
    refine (h1.perm.append h2.perm).trans ?_
    simp only [List.append_assoc]
    refine List.Perm.append_left f ?_
    rw [← List.append_assoc, ← List.append_assoc]
    exact List.perm_append_comm.append_right k'
  nodup := by
    rw [List.map_append]
    apply h1.nodup.append h2.nodup
    intro p hp hp'
    obtain ⟨b, hb, rfl⟩ := List.mem_map.mp hp
    obtain ⟨b', hb', he⟩ := List.mem_map.mp hp'
    have hlt := (h1.range b hb).2
    have hge := (h2.range b' hb').1
    rw [he] at hge
    omega
  range := by
    intro b hb
    rcases List.mem_append.mp hb with hb | hb
    · exact ⟨(h1.range b hb).1, Nat.lt_of_lt_of_le (h1.range b hb).2 h2.next⟩
    · exact ⟨Nat.le_trans h1.next (h2.range b hb).1, (h2.range b hb).2⟩

theorem Ledger.trans {h h' h'' : Heap κ} {k k' : List (Ptr κ)} (h1 : Ledger h h' k) (h2 : Ledger h' h'' k') :
    Ledger h h'' (k ++ k') := by
  obtain ⟨g, f, e⟩ := h1
  obtain ⟨g', f', e'⟩ := h2
  exact ⟨_, _, e.trans e'⟩

theorem Ledger.perm {h h' : Heap κ} {k k' : List (Ptr κ)} (h1 : Ledger h h' k) (hk : k.Perm k') : Ledger h h' k' := by
  obtain ⟨g, f, e⟩ := h1
  exact ⟨g, f, e.next, e.fails, e.blocks, e.freed, e.perm.trans (hk.append_left f), e.nodup, e.range⟩

/-- A program may free what it still owns. -/
theorem Ledger.frees {h h' : Heap κ} {k ps : List (Ptr κ)} (h1 : Ledger h h' (ps ++ k)) : Ledger h (h'.frees ps) k := by
  obtain ⟨g, f, e⟩ := h1
  refine ⟨g, f ++ ps, e.next, e.fails, e.blocks, ?_, ?_, e.nodup, e.range⟩
  · rw [Heap.frees_freed, e.freed, List.append_assoc]
  · rw [List.append_assoc]
    exact e.perm

section Facts

variable {h h' : Heap κ} {kept : List (Ptr κ)}

theorem Ledger.next_le (hl : Ledger h h' kept) : h.next ≤ h'.next := by
  obtain ⟨g, f, e⟩ := hl
  exact e.next

theorem Ledger.sound (hl : Ledger h h' kept) (hs : h.Sound) : h'.Sound := by
  obtain ⟨g, f, e⟩ := hl
  have hgone : ∀ p ∈ f, p.request < h'.next := by
    intro p hp
    obtain ⟨b, hb, rfl⟩ := List.mem_map.mp (e.perm.symm.subset (List.mem_append_left _ hp))
    exact (e.range b hb).2
  constructor
  · intro b hb
    rw [e.blocks] at hb
    rcases List.mem_append.mp hb with hb | hb
    · exact Nat.lt_of_lt_of_le (hs.blocks b hb) e.next
    · exact (e.range b hb).2
  · intro p hp
    rw [e.freed] at hp
    rcases List.mem_append.mp hp with hp | hp
    · exact Nat.lt_of_lt_of_le (hs.freed p hp) e.next
    · exact hgone p hp

theorem Ledger.allGranted (hl : Ledger h h' kept) (hg : h.AllGranted) : h'.AllGranted := by
  obtain ⟨g, f, e⟩ := hl
  intro n
  rw [e.fails]
  exact hg n

theorem Ledger.kept_range (hl : Ledger h h' kept) {p : Ptr κ} (hp : p ∈ kept) :
    h.next ≤ p.request ∧ p.request < h'.next := by
  obtain ⟨g, f, e⟩ := hl
  obtain ⟨b, hb, rfl⟩ := List.mem_map.mp (e.perm.symm.subset (List.mem_append_right _ hp))
  exact e.range b hb

/-- What was freed, of the blocks asked for since `h`: in the range, once, and not kept. -/
theorem Ledger.gone (hl : Ledger h h' kept) : ∃ gone, h'.freed = h.freed ++ gone ∧ (gone ++ kept).Nodup ∧
    ∀ p ∈ gone, h.next ≤ p.request ∧ p.request < h'.next := by
  obtain ⟨g, f, e⟩ := hl
  refine ⟨f, e.freed, e.perm.nodup_iff.mp e.nodup, ?_⟩
  intro p hp
  obtain ⟨b, hb, rfl⟩ := List.mem_map.mp (e.perm.symm.subset (List.mem_append_left _ hp))
  exact e.range b hb

theorem Ledger.freed_le_one [DecidableEq κ] (hl : Ledger h h' kept) (hs : h.Sound) {p : Ptr κ} (hp : h.next ≤ p.request) :
    h'.freed.count p ≤ 1 := by
  obtain ⟨gone, e, hn, -⟩ := hl.gone
  have hold : h.freed.count p = 0 := by
    rw [List.count_eq_zero]
    intro hm
    have := hs.freed p hm
    omega
  rw [e, List.count_append, hold, Nat.zero_add]
  exact List.nodup_iff_count_le_one.mp (List.nodup_append.mp hn).1 p

theorem Ledger.kept_not_freed (hl : Ledger h h' kept) (hs : h.Sound) {p : Ptr κ} (hp : p ∈ kept) : p ∉ h'.freed := by
  obtain ⟨gone, e, hn, -⟩ := hl.gone
  intro hm
  rw [e] at hm
  rcases List.mem_append.mp hm with hm | hm
  · have h1 := hs.freed p hm
    have h2 := (hl.kept_range hp).1
    omega
  · exact (List.nodup_append.mp hn).2.2 p hm p hp rfl

/-- A block from before is freed by then or not at all. -/
theorem Ledger.old_freed (hl : Ledger h h' kept) {p : Ptr κ} (hp : p.request < h.next) : p ∈ h'.freed ↔ p ∈ h.freed := by
  obtain ⟨gone, e, -, hr⟩ := hl.gone
  rw [e, List.mem_append]
  refine ⟨fun hm => hm.resolve_right fun hg => ?_, Or.inl⟩
  have := (hr p hg).1
  omega

theorem Ledger.granted_cases (hl : Ledger h h' kept) (hs : h.Sound) {b : Ptr κ × Nat} (hb : b ∈ h'.blocks)
    (hnew : h.next ≤ b.1.request) : b.1 ∈ h'.freed ∨ b.1 ∈ kept := by
  obtain ⟨g, f, e⟩ := hl
  rw [e.blocks] at hb
  rcases List.mem_append.mp hb with hb | hb
  · have := hs.blocks b hb
    omega
  · rcases List.mem_append.mp (e.perm.subset (List.mem_map_of_mem hb)) with hm | hm
    · exact Or.inl (by rw [e.freed]; exact List.mem_append_right _ hm)
    · exact Or.inr hm

theorem Ledger.old_blocks (hl : Ledger h h' kept) {b : Ptr κ × Nat} (hb : b ∈ h.blocks) : b ∈ h'.blocks := by
  obtain ⟨g, f, e⟩ := hl
  rw [e.blocks]
  exact List.mem_append_left _ hb

/-- What is kept was granted. -/
theorem Ledger.kept_granted (hl : Ledger h h' kept) {p : Ptr κ} (hp : p ∈ kept) : ∃ n, (p, n) ∈ h'.blocks := by
  obtain ⟨g, f, e⟩ := hl
  obtain ⟨b, hb, rfl⟩ := List.mem_map.mp (e.perm.symm.subset (List.mem_append_right _ hp))
  refine ⟨b.2, ?_⟩
  rw [e.blocks]
  exact List.mem_append_right _ hb

end Facts

/-! ## Accounts -/

namespace Heap

/-- The blocks granted between `h` and `h'`. -/
def grantedSince (h h' : Heap κ) : List (Ptr κ) := (h'.blocks.drop h.blocks.length).map (·.1)

/-- What was freed between `h` and `h'`, in order. -/
def freedSince (h h' : Heap κ) : List (Ptr κ) := h'.freed.drop h.freed.length

end Heap

/-- From `h` to `h'` every block granted was freed exactly once, but for those `left`, which
    were not; nothing else was freed. -/
structure Accounts [DecidableEq κ] (h h' : Heap κ) (left : List (Ptr κ)) : Prop where
  blocks : h.blocks <+: h'.blocks
  freed : h.freed <+: h'.freed
  once : ∀ p ∈ h.grantedSince h', (h.freedSince h').count p = if p ∈ left then 0 else 1
  own : ∀ p ∈ h.freedSince h', p ∈ h.grantedSince h'
  left : left ⊆ h.grantedSince h'

theorem Ledger.accounts [DecidableEq κ] {h h' : Heap κ} {kept : List (Ptr κ)} (hl : Ledger h h' kept) :
    Accounts h h' kept := by
  obtain ⟨granted, gone, e⟩ := hl
  have hgranted : h.grantedSince h' = granted.map (·.1) := by rw [Heap.grantedSince, e.blocks, List.drop_left]
  have hgone : h.freedSince h' = gone := by rw [Heap.freedSince, e.freed, List.drop_left]
  have hnodup : (gone ++ kept).Nodup := e.perm.nodup_iff.mp e.nodup
  refine ⟨⟨granted, e.blocks.symm⟩, ⟨gone, e.freed.symm⟩, fun p hp => ?_, fun p hp => ?_, fun p hp => ?_⟩
  · rw [hgranted] at hp
    rw [hgone]
    obtain ⟨hgone', -, hdisjoint⟩ := List.nodup_append.mp hnodup
    by_cases hk : p ∈ kept
    · rw [if_pos hk, List.count_eq_zero]
      exact fun hg => hdisjoint p hg p hk rfl
    · rw [if_neg hk]
      exact List.count_eq_one_of_mem hgone' ((List.mem_append.mp (e.perm.subset hp)).resolve_right hk)
  · rw [hgone] at hp
    rw [hgranted]
    exact e.perm.symm.subset (List.mem_append_left _ hp)
  · rw [hgranted]
    exact e.perm.symm.subset (List.mem_append_right _ hp)

/-- A program that freed nothing keeps all it was granted. -/
theorem Ledger.keeps_all {h h' : Heap κ} {kept : List (Ptr κ)} (hl : Ledger h h' kept) (hf : h'.freed = h.freed) :
    kept.Perm (h.grantedSince h') := by
  obtain ⟨granted, gone, e⟩ := hl
  have hgone : gone = [] := List.append_right_eq_self.mp (e.freed.symm.trans hf)
  rw [Heap.grantedSince, e.blocks, List.drop_left]
  have hperm := e.perm
  rw [hgone, List.nil_append] at hperm
  exact hperm.symm

/-! ## Freed twice -/

/-- What a program does to the heap, at the least. -/
structure Grows (h h' : Heap κ) : Prop where
  next : h.next ≤ h'.next
  blocks : h.blocks <+: h'.blocks
  freed : h.freed <+: h'.freed

theorem Grows.refl (h : Heap κ) : Grows h h := ⟨Nat.le_refl _, List.prefix_rfl, List.prefix_rfl⟩

theorem Grows.trans {h h' h'' : Heap κ} (h1 : Grows h h') (h2 : Grows h' h'') : Grows h h'' :=
  ⟨Nat.le_trans h1.next h2.next, h1.blocks.trans h2.blocks, h1.freed.trans h2.freed⟩

theorem grows_frees (h : Heap κ) (ps : List (Ptr κ)) : Grows h (h.frees ps) :=
  ⟨Nat.le_refl _, List.prefix_rfl, List.prefix_append ..⟩

theorem Ledger.grows {h h' : Heap κ} {kept : List (Ptr κ)} (hl : Ledger h h' kept) : Grows h h' := by
  obtain ⟨granted, gone, e⟩ := hl
  exact ⟨e.next, ⟨granted, e.blocks.symm⟩, ⟨gone, e.freed.symm⟩⟩

section Twice

variable {h h' h'' : Heap κ}

theorem Grows.granted (h1 : Grows h h') (h2 : Grows h' h'') : h.grantedSince h'' = h.grantedSince h' ++ h'.grantedSince h'' := by
  obtain ⟨-, ⟨g, hg⟩, -⟩ := h1
  obtain ⟨-, ⟨g', hg'⟩, -⟩ := h2
  unfold Heap.grantedSince
  rw [← hg', ← hg, List.append_assoc, List.drop_left, List.drop_left, ← List.append_assoc, List.drop_left, List.map_append]

theorem Grows.gone (h1 : Grows h h') (h2 : Grows h' h'') : h.freedSince h'' = h.freedSince h' ++ h'.freedSince h'' := by
  obtain ⟨-, -, ⟨f, hf⟩⟩ := h1
  obtain ⟨-, -, ⟨f', hf'⟩⟩ := h2
  unfold Heap.freedSince
  rw [← hf', ← hf, List.append_assoc, List.drop_left, List.drop_left, ← List.append_assoc, List.drop_left]

/-- Some block granted since `h` has been freed twice since. -/
def FreedTwice [DecidableEq κ] (h h' : Heap κ) : Prop := ∃ p ∈ h.grantedSince h', 2 ≤ (h.freedSince h').count p

variable [DecidableEq κ]

theorem freedTwice_grows (h1 : Grows h h') (h2 : Grows h' h'') (ht : FreedTwice h h' ∨ FreedTwice h' h'') : FreedTwice h h'' := by
  rw [FreedTwice, h1.granted h2, h1.gone h2]
  rcases ht with ⟨p, hp, htwice⟩ | ⟨p, hp, htwice⟩
  · refine ⟨p, List.mem_append_left _ hp, ?_⟩
    rw [List.count_append]
    omega
  · refine ⟨p, List.mem_append_right _ hp, ?_⟩
    rw [List.count_append]
    omega

/-- Two `free`s of a block it kept. -/
theorem Ledger.freedTwice {kept ps : List (Ptr κ)} (hl : Ledger h h' kept) {p : Ptr κ} (hk : p ∈ kept) (hp : p ∈ ps) :
    FreedTwice h ((h'.frees ps).frees ps) := by
  refine ⟨p, hl.accounts.left hk, ?_⟩
  obtain ⟨f, hf⟩ := hl.grows.freed
  have hgone : h.freedSince ((h'.frees ps).frees ps) = f ++ (ps ++ ps) := by
    simp only [Heap.freedSince, Heap.frees_freed, ← hf, List.append_assoc, List.drop_left]
  have hpos : 0 < ps.count p := List.count_pos_iff.mpr hp
  rw [hgone, List.count_append, List.count_append]
  omega

theorem Accounts.not_freedTwice {left : List (Ptr κ)} (ha : Accounts h h' left) : ¬ FreedTwice h h' := by
  rintro ⟨p, hp, htwice⟩
  rw [ha.once p hp] at htwice
  split at htwice
  · omega
  · omega

end Twice

end Lib.Alloc
