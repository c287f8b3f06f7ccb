/-
  RabbitMQ.Lib.Reader — programs that read a stream request by request and give up at the
  first request that is not granted in full.

  A reader is a state change with an optional result. `attempt r exit k` goes on with `k`
  when `r` has a result and otherwise leaves through `exit`. What a state offers is a
  parameter: `At s bs k` says that `s` is about to make its `k`-th request with the bytes
  `bs` ahead; `grants k n` says that request `k`, for `n` bytes, is granted in full; `Left`
  is what holds of a state a reader gave up in.

  `Reads f ns bs P`: on a state with `bs` ahead, `f` makes the requests `ns`; when all are
  granted it takes exactly `bs` and returns a value with `P`, and when one is not it
  returns none. Readers compose (`reads_attempt`), and a reader that takes one item reads
  a concatenation of items one by one (`many_reads`).
-/

import Mathlib.Data.List.Basic

namespace Lib.Reader

variable {σ β γ δ ι : Type}

def attempt (r : Option γ × σ) (exit : σ → σ) (k : γ → σ → Option δ × σ) : Option δ × σ :=
  match r with
  | (none, s) => (none, exit s)
  | (some v, s) => k v s

theorem attempt_some {r : Option γ × σ} {exit : σ → σ} {k : γ → σ → Option δ × σ} {v : δ} {s : σ}
    (h : attempt r exit k = (some v, s)) : ∃ u t, r = (some u, t) ∧ k u t = (some v, s) := by
  obtain ⟨u, t⟩ := r
  cases u with
  | none => cases h
  | some u => exact ⟨u, t, rfl, h⟩

/-- Read until the first failure, at most `n` items. -/
def many (next : σ → Option γ × σ) : Nat → σ → List γ × σ
  | 0, s => ([], s)
  | n + 1, s =>
    match next s with
    | (none, s) => ([], s)
    | (some v, s) => let r := many next n s; (v :: r.1, r.2)

/-- The results of `n` attempts, going on after a failure. -/
def attempts (next : σ → Option γ × σ) : Nat → σ → List γ × σ
  | 0, s => ([], s)
  | n + 1, s => let r := next s; let rest := attempts next n r.2; (r.1.toList ++ rest.1, rest.2)

section Granted

variable (grants : Nat → Nat → Prop)

/-- The requests for `ns` bytes, numbered from `k`, are all granted in full. -/
def Granted : Nat → List Nat → Prop
  | _, [] => True
  | k, n :: ns => grants k n ∧ Granted (k + 1) ns

theorem granted_append {k : Nat} {a b : List Nat} :
    Granted grants k (a ++ b) ↔ Granted grants k a ∧ Granted grants (k + a.length) b := by
  induction a generalizing k with
  | nil => simp [Granted]
  | cons n a ih =>
    have hk : k + 1 + a.length = k + (a.length + 1) := by omega
    simp [Granted, ih, and_assoc, hk]

theorem granted_iff {k : Nat} {ns : List Nat} :
    Granted grants k ns ↔ ∀ i n, ns[i]? = some n → grants (k + i) n := by
  induction ns generalizing k with
  | nil => simp [Granted]
  | cons n ns ih =>
    rw [Granted, ih]
    constructor
    · intro h i m hm
      obtain ⟨h0, h⟩ := h
      cases i with
      | zero => simpa [← Option.some.inj hm] using h0
      | succ i =>
        have := h i m (by simpa using hm)
        rwa [Nat.add_assoc, Nat.add_comm 1 i] at this
    · intro h
      refine ⟨h 0 n rfl, ?_⟩
      intro i m hm
      have := h (i + 1) m (by simpa using hm)
      rwa [Nat.add_assoc, Nat.add_comm 1 i]

end Granted

variable (At : σ → List β → Nat → Prop) (grants : Nat → Nat → Prop) (Left : σ → Prop)

def Reads (f : σ → Option γ × σ) (ns : List Nat) (bs : List β) (P : γ → Prop) : Prop :=
  ∀ s rest k, At s (bs ++ rest) k →
    (Granted grants k ns → ∃ v s', f s = (some v, s') ∧ P v ∧ At s' rest (k + ns.length)) ∧
    (¬ Granted grants k ns → ∃ s', f s = (none, s') ∧ Left s')

variable {At grants Left} {P : γ → Prop} {Q : δ → Prop}

theorem reads_mono {f : σ → Option γ × σ} {ns : List Nat} {bs : List β} {P' : γ → Prop}
    (h : Reads At grants Left f ns bs P) (hP : ∀ v, P v → P' v) : Reads At grants Left f ns bs P' := by
  intro s rest k hs
  obtain ⟨h1, h2⟩ := h s rest k hs
  refine ⟨?_, h2⟩
  intro hg
  obtain ⟨v, s', e, hv, hs'⟩ := h1 hg
  exact ⟨v, s', e, hP v hv, hs'⟩

/-- A step that asks for nothing. -/
theorem reads_done {f : σ → Option γ × σ} (h : ∀ s bs k, At s bs k → ∃ v s', f s = (some v, s') ∧ P v ∧ At s' bs k) :
    Reads At grants Left f [] [] P := by
  intro s rest k hs
  exact ⟨fun _ => h s rest k hs, fun hn => absurd trivial hn⟩

theorem reads_attempt {f : σ → Option γ × σ} {exit : σ → σ} {g : γ → σ → Option δ × σ} {ns ns' : List Nat}
    {bs bs' : List β} (hf : Reads At grants Left f ns bs P) (hexit : ∀ s, Left s → Left (exit s))
    (hg : ∀ v, P v → Reads At grants Left (g v) ns' bs' Q) :
    Reads At grants Left (fun s => attempt (f s) exit g) (ns ++ ns') (bs ++ bs') Q := by
  intro s rest k hs
  rw [List.append_assoc] at hs
  obtain ⟨h1, h2⟩ := hf s (bs' ++ rest) k hs
  rw [granted_append]
  by_cases hns : Granted grants k ns
  · obtain ⟨v, s1, e, hv, hs1⟩ := h1 hns
    obtain ⟨h3, h4⟩ := hg v hv s1 rest _ hs1
    simp only [e, attempt]
    refine ⟨?_, fun h => h4 fun h' => h ⟨hns, h'⟩⟩
    intro h
    obtain ⟨w, s2, e2, hw, hs2⟩ := h3 h.2
    rw [Nat.add_assoc, ← List.length_append] at hs2
    exact ⟨w, s2, e2, hw, hs2⟩
  · obtain ⟨s1, e, hl⟩ := h2 hns
    simp only [e, attempt]
    exact ⟨fun h => absurd h.1 hns, fun _ => ⟨exit s1, rfl, hexit s1 hl⟩⟩

/-- An `attempt` whose continuation asks for nothing. -/
theorem reads_attempt_done {f : σ → Option γ × σ} {exit : σ → σ} {g : γ → σ → Option δ × σ} {ns : List Nat}
    {bs : List β} (hf : Reads At grants Left f ns bs P) (hexit : ∀ s, Left s → Left (exit s))
    (hg : ∀ v, P v → ∀ s bs k, At s bs k → ∃ w s', g v s = (some w, s') ∧ Q w ∧ At s' bs k) :
    Reads At grants Left (fun s => attempt (f s) exit g) ns bs Q := by
  have h := reads_attempt hf hexit fun v hv => reads_done (hg v hv)
  rwa [List.append_nil, List.append_nil] at h

/-- A reader of one item, given the concatenation of some items with every request
    granted, returns them in order and takes every byte; reading on goes on from there. -/
theorem many_reads {next : σ → Option γ × σ} {enc : ι → List β} {sizes : ι → List Nat} {Same : ι → γ → Prop}
    {items : List ι} (h : ∀ m ∈ items, Reads At grants Left next (sizes m) (enc m) (Same m)) {s : σ} {rest : List β}
    {k : Nat} (hs : At s (items.flatMap enc ++ rest) k) (hg : Granted grants k (items.flatMap sizes)) :
    ∃ vs s', (∀ n, many next (items.length + n) s = (vs ++ (many next n s').1, (many next n s').2)) ∧
      List.Forall₂ Same items vs ∧ At s' rest (k + (items.flatMap sizes).length) := by
  induction items generalizing s k with
  | nil => exact ⟨[], s, fun n => by rw [List.length_nil, Nat.zero_add, List.nil_append], .nil, hs⟩
  | cons m items ih =>
    rw [List.flatMap_cons, List.append_assoc] at hs
    rw [List.flatMap_cons, granted_append] at hg
    obtain ⟨v, s1, e, hv, hs1⟩ := (h m (List.mem_cons_self ..) s _ k hs).1 hg.1
    obtain ⟨vs, s2, e2, hvs, hs2⟩ := ih (fun m hm => h m (List.mem_cons_of_mem _ hm)) hs1 hg.2
    refine ⟨v :: vs, s2, ?_, .cons hv hvs, ?_⟩
    · intro n
      have hlen : (m :: items).length + n = (items.length + n) + 1 := by
        rw [List.length_cons]
        omega
      simp only [hlen, many, e, e2 n, List.cons_append]
    · rwa [List.flatMap_cons, List.length_append, ← Nat.add_assoc]

/-! ## Readers of other states -/

section Simulation

variable {τ γ' δ' : Type} (R : σ → τ → Prop)

def Simulates (f : σ → Option γ × σ) (out : γ → γ') (g : τ → Option γ' × τ) : Prop :=
  ∀ s t, R s t → (f s).1.map out = (g t).1 ∧ R (f s).2 (g t).2

variable {R}

theorem simulates_attempt {f : σ → Option γ × σ} {out : γ → γ'} {g : τ → Option γ' × τ} {exit : σ → σ}
    {k : γ → σ → Option δ × σ} {out' : δ → δ'} {k' : γ' → τ → Option δ' × τ} (hf : Simulates R f out g)
    (hexit : ∀ s t, R s t → R (exit s) t) (hk : ∀ v, (∃ s, (f s).1 = some v) → Simulates R (k v) out' (k' (out v))) :
    Simulates R (fun s => attempt (f s) exit k) out' (fun t => attempt (g t) id k') := by
  intro s t h
  obtain ⟨hv, hr⟩ := hf s t h
  have hvalue : ∀ v, (f s).1 = some v → Simulates R (k v) out' (k' (out v)) := fun v hv => hk v ⟨s, hv⟩
  revert hv hr hvalue
  show _ → _ → _ → (attempt (f s) exit k).1.map out' = (attempt (g t) id k').1 ∧
    R (attempt (f s) exit k).2 (attempt (g t) id k').2
  cases f s with
  | mk o s1 =>
  cases g t with
  | mk o' t1 =>
  intro hv hr hvalue
  cases o with
  | none =>
    cases hv
    exact ⟨rfl, hexit s1 t1 hr⟩
  | some v =>
    cases hv
    exact hvalue v rfl s1 t1 hr

theorem simulates_attempts {f : σ → Option γ × σ} {out : γ → γ'} {g : τ → Option γ' × τ} (h : Simulates R f out g)
    (n : Nat) {s : σ} {t : τ} (hs : R s t) :
    (attempts f n s).1.map out = (attempts g n t).1 ∧ R (attempts f n s).2 (attempts g n t).2 := by
  induction n generalizing s t with
  | zero => exact ⟨rfl, hs⟩
  | succ n ih =>
    obtain ⟨hv, hr⟩ := h s t hs
    obtain ⟨hvs, hr'⟩ := ih hr
    refine ⟨?_, hr'⟩
    simp only [attempts, List.map_append, hvs, ← hv]
    congr 1
    cases (f s).1 with
    | none => rfl
    | some v => rfl

/-- Where `f` has a result, `g` has a like one, and the states they leave are related. -/
def Follows (R : σ → τ → Prop) (f : σ → Option γ × σ) (like : γ → γ' → Prop) (g : τ → Option γ' × τ) : Prop :=
  ∀ s t, R s t → ∀ v s', f s = (some v, s') → ∃ u t', g t = (some u, t') ∧ like v u ∧ R s' t'

theorem follows_attempt {f : σ → Option γ × σ} {like : γ → γ' → Prop} {g : τ → Option γ' × τ} (exit : σ → σ)
    {k : γ → σ → Option δ × σ} {like' : δ → δ' → Prop} {k' : γ' → τ → Option δ' × τ} (hf : Follows R f like g)
    (hk : ∀ v u, like v u → Follows R (k v) like' (k' u)) :
    Follows R (fun s => attempt (f s) exit k) like' (fun t => attempt (g t) id k') := by
  intro s t h v s' hv
  obtain ⟨x, s1, h1, h2⟩ := attempt_some hv
  obtain ⟨y, t1, e1, hl, hr⟩ := hf s t h x s1 h1
  obtain ⟨u, t', e2, hl', hr'⟩ := hk x y hl s1 t1 hr v s' h2
  refine ⟨u, t', ?_, hl', hr'⟩
  show attempt (g t) id k' = _
  rw [e1]
  exact e2

end Simulation

/-! ## Why a reader gives up -/

section Reasons

variable {ε : Type}

def reason (r : Option γ × σ) (why : ε) (k : γ → σ → ε) : ε :=
  match r with
  | (none, _) => why
  | (some v, s) => k v s

variable (Kept : σ → σ → Prop) (Ends : ε → σ → σ → Prop)

/-- With a result, what is `Kept` holds of the states before and after; giving up, what `why`
    makes of it. -/
def Explains (f : σ → Option γ × σ) (why : σ → ε) : Prop :=
  ∀ s, (∀ v s', f s = (some v, s') → Kept s s') ∧ ∀ s', f s = (none, s') → Ends (why s) s s'

variable {Kept Ends} (htrans : ∀ {s s' s''}, Kept s s' → Kept s' s'' → Kept s s'')
  (hends : ∀ {e s s' s''}, Kept s s' → Ends e s' s'' → Ends e s s'')

include htrans hends in
theorem explains_attempt {f : σ → Option γ × σ} {why : σ → ε} {exit : σ → σ} {k : γ → σ → Option δ × σ}
    {why' : γ → σ → ε} (hf : Explains Kept Ends f why) (hexit : ∀ e s s', Ends e s s' → Ends e s (exit s'))
    (hk : ∀ v, Explains Kept Ends (k v) (why' v)) :
    Explains Kept Ends (fun s => attempt (f s) exit k) fun s => reason (f s) (why s) why' := by
  intro s
  obtain ⟨hkept, hwhy⟩ := hf s
  show (∀ v s', attempt (f s) exit k = (some v, s') → Kept s s') ∧
    ∀ s', attempt (f s) exit k = (none, s') → Ends (reason (f s) (why s) why') s s'
  cases e : f s with
  | mk o s1 =>
  cases o with
  | none =>
    constructor
    · intro v s' h
      cases h
    · intro s' h
      cases h
      exact hexit _ _ _ (hwhy s1 e)
  | some v =>
    obtain ⟨hkept', hwhy'⟩ := hk v s1
    exact ⟨fun u s' h => htrans (hkept v s1 e) (hkept' u s' h), fun s' h => hends (hkept v s1 e) (hwhy' s' h)⟩

include htrans in
/-- An `attempt` whose continuation never gives up. -/
theorem explains_attempt_done {f : σ → Option γ × σ} {why : σ → ε} {exit : σ → σ} {k : γ → σ → Option δ × σ}
    (hf : Explains Kept Ends f why) (hexit : ∀ e s s', Ends e s s' → Ends e s (exit s'))
    (hk : ∀ v s, ∃ w s', k v s = (some w, s') ∧ Kept s s') :
    Explains Kept Ends (fun s => attempt (f s) exit k) why := by
  intro s
  obtain ⟨hkept, hwhy⟩ := hf s
  show (∀ v s', attempt (f s) exit k = (some v, s') → Kept s s') ∧
    ∀ s', attempt (f s) exit k = (none, s') → Ends (why s) s s'
  cases e : f s with
  | mk o s1 =>
  cases o with
  | none =>
    constructor
    · intro v s' h
      cases h
    · intro s' h
      cases h
      exact hexit _ _ _ (hwhy s1 e)
  | some v =>
    obtain ⟨w, s2, hdone, hlast⟩ := hk v s1
    have h2 : attempt (some v, s1) exit k = (some w, s2) := hdone
    rw [h2]
    constructor
    · intro u s' h
      cases h
      exact htrans (hkept v s1 e) hlast
    · intro s' h
      cases h

end Reasons

/-! ## Readers of lists -/

/-- The next `n` items; when there are fewer, these are lost. -/
def exactly (n : Nat) (bs : List β) : Option (List β) × List β :=
  if n ≤ bs.length then (some (bs.take n), bs.drop n) else (none, [])

def Exact (g : List β → Option γ × List β) : Prop :=
  ∀ bs v rest, g bs = (some v, rest) → ∃ used, bs = used ++ rest ∧ ∀ rest', g (used ++ rest') = (some v, rest')

def Drains (g : List β → Option γ × List β) : Prop := ∀ bs, (g bs).1 = none → (g bs).2 = []

theorem exactly_append {n : Nat} {used rest : List β} (h : used.length = n) :
    exactly n (used ++ rest) = (some used, rest) := by
  subst h
  rw [exactly, if_pos (by rw [List.length_append]; omega), List.take_left, List.drop_left]

theorem exactly_nil (bs : List β) : exactly 0 bs = (some [], bs) := exactly_append (List.length_nil)

theorem exactly_some {n : Nat} {bs v rest : List β} (h : exactly n bs = (some v, rest)) :
    n ≤ bs.length ∧ v = bs.take n ∧ rest = bs.drop n := by
  unfold exactly at h
  split at h
  · rename_i hle
    cases h
    exact ⟨hle, rfl, rfl⟩
  · cases h

theorem exactly_exact (n : Nat) : Exact (exactly n : List β → _) := by
  intro bs v rest h
  obtain ⟨hle, rfl, rfl⟩ := exactly_some h
  have hlen : (bs.take n).length = n := List.length_take_of_le hle
  exact ⟨bs.take n, (List.take_append_drop n bs).symm, fun rest' => exactly_append hlen⟩

/-- A result found in the first bytes of a list is the result of the whole list. -/
theorem exact_prefix {g : List β → Option γ × List β} (hg : Exact g) {bs whole rest rest' : List β} {u v : γ}
    (hpre : bs <+: whole) (hu : g bs = (some u, rest)) (hv : g whole = (some v, rest')) : u = v ∧ rest <+: rest' := by
  obtain ⟨used, rfl, hused⟩ := hg bs u rest hu
  obtain ⟨more, rfl⟩ := hpre
  rw [List.append_assoc, hused, Prod.mk.injEq, Option.some.injEq] at hv
  exact ⟨hv.1, more, hv.2⟩

theorem exactly_drains (n : Nat) : Drains (exactly n : List β → _) := by
  intro bs h
  unfold exactly at h ⊢
  split at h
  · cases h
  · rename_i hlt
    rw [if_neg hlt]

theorem exact_done (v : γ) : Exact fun bs : List β => (some v, bs) := by
  intro bs u rest h
  cases h
  exact ⟨[], rfl, fun _ => rfl⟩

theorem drains_done (v : γ) : Drains fun bs : List β => (some v, bs) := by
  intro bs h
  cases h

theorem exact_attempt {g : List β → Option γ × List β} {k : γ → List β → Option δ × List β} (hg : Exact g)
    (hk : ∀ v, Exact (k v)) : Exact fun bs => attempt (g bs) id k := by
  intro bs v rest h
  obtain ⟨u, mid, h1, h2⟩ := attempt_some h
  obtain ⟨used, rfl, hused⟩ := hg bs u mid h1
  obtain ⟨used', rfl, hused'⟩ := hk u mid v rest h2
  refine ⟨used ++ used', (List.append_assoc ..).symm, fun rest' => ?_⟩
  show attempt (g (used ++ used' ++ rest')) id k = _
  rw [List.append_assoc, hused]
  exact hused' rest'

theorem drains_attempt {g : List β → Option γ × List β} {k : γ → List β → Option δ × List β} (hg : Drains g)
    (hk : ∀ v, Drains (k v)) : Drains fun bs => attempt (g bs) id k := by
  intro bs h
  have hnone := hg bs
  revert h hnone
  show (attempt (g bs) id k).1 = none → _ → (attempt (g bs) id k).2 = []
  cases g bs with
  | mk o mid =>
  intro h hnone
  cases o with
  | none => exact hnone rfl
  | some v => exact hk v mid h

end Lib.Reader
