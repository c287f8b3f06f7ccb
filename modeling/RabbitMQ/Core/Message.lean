/-
  RabbitMQ.Core.Message — `message.c`: messages and the memory they own.

  A `Message` is its fields with the block that holds it and the blocks of its strings and
  body (`owned`: the non-NULL ones, in the order `message_free` passes them to `free`).
  `strdup` is not checked in the source: refused, it leaves a NULL string. A body pointer
  is the bytes it points to, at least `body_size` of them.

  Proved: `message_create` owns what it was granted and frees the rest (`create_ledger`);
  on a heap with nothing refused it copies its arguments (`create_fields`), and a clone has
  the fields of its original (`clone_fields`).
-/

import RabbitMQ.Core.Memory

namespace RabbitMQ.Core

open Lib

/-! ## Messages -/

structure Fields where
  exchange : Option CString
  routingKey : Option CString
  body : Option Bytes
  bodySize : UInt64
  priority : UInt32
  expiration : UInt64
  persistent : UInt8
  deriving DecidableEq

structure Message extends Fields where
  addr : Ptr
  owned : List Ptr
  deriving DecidableEq

/-- The blocks `message_free` frees, in order. -/
def Message.blocks (m : Message) : List Ptr := m.owned ++ [m.addr]

def messageFree (m : Message) (h : Heap) : Heap := h.frees m.blocks

def messageCreate (exchange routingKey : Option CString) (body : Option Bytes) (bodySize : UInt64) (h : Heap) :
    Option Message × Heap :=
  match exchange, routingKey with
  | some exchange, some routingKey =>
    if body = none ∧ 0 < bodySize then (none, h) else
    match mallocMessage h with
    | (none, h) => (none, h)
    | (some message, h) =>
    let (dupExchange, h) := strdup h exchange
    let (dupKey, h) := strdup h routingKey
    let strings := dupExchange.toList ++ dupKey.toList
    if 0 < bodySize then
      match malloc h bodySize.toNat with
      | (none, h) => (none, h.frees (strings ++ [message]))
      | (some block, h) =>
        (some { exchange := dupExchange.map fun _ => exchange, routingKey := dupKey.map fun _ => routingKey,
                body := body.map (·.take bodySize.toNat), bodySize, priority := 0, expiration := 0, persistent := 0,
                addr := message, owned := strings ++ [block] }, h)
    else
      (some { exchange := dupExchange.map fun _ => exchange, routingKey := dupKey.map fun _ => routingKey,
              body := none, bodySize := 0, priority := 0, expiration := 0, persistent := 0,
              addr := message, owned := strings }, h)
  | _, _ => (none, h)

def messageClone (m : Message) (h : Heap) : Option Message × Heap :=
  match messageCreate m.exchange m.routingKey m.body m.bodySize h with
  | (none, h) => (none, h)
  | (some clone, h) =>
    (some { clone with priority := m.priority, expiration := m.expiration, persistent := m.persistent }, h)

def messageSetPriority (m : Message) (priority : UInt32) : Message :=
  { m with priority := if priority > 9 then 9 else priority }

def messageSetExpiration (m : Message) (expiration : UInt64) : Message := { m with expiration := expiration }

def messageSetPersistent (m : Message) (persistent : UInt8) : Message :=
  { m with persistent := if persistent ≠ 0 then 1 else 0 }

/-! ## Who owns what -/

/-- The blocks of a message that may not be there. -/
def held (m : Option Message) : List Ptr := (m.map Message.blocks).getD []

theorem create_ledger (exchange routingKey : Option CString) (body : Option Bytes) (bodySize : UInt64) (h : Heap) :
    Alloc.Ledger h (messageCreate exchange routingKey body bodySize h).2
      (held (messageCreate exchange routingKey body bodySize h).1) := by
  unfold messageCreate
  split
  case h_2 => exact Alloc.ledger_refl h
  rename_i exchange routingKey
  by_cases hnull : body = none ∧ 0 < bodySize
  · rw [if_pos hnull]
    exact Alloc.ledger_refl h
  rw [if_neg hnull]
  have h1 := Alloc.ledger_request h Kind.message 56
  cases hm : mallocMessage h with
  | mk message h₁ =>
  rw [show h.request Kind.message 56 = (message, h₁) from hm] at h1
  cases message with
  | none => exact h1
  | some message =>
  -- the struct and the two strings, before the body is asked for
  have l1 := Alloc.ledger_request h₁ Kind.plain (exchange.strlen + 1)
  have l2 := Alloc.ledger_request (strdup h₁ exchange).2 Kind.plain (routingKey.strlen + 1)
  have h3 : Alloc.Ledger h (strdup (strdup h₁ exchange).2 routingKey).2
      (((strdup h₁ exchange).1.toList ++ (strdup (strdup h₁ exchange).2 routingKey).1.toList) ++ [message]) :=
    (h1.trans (l1.trans l2)).perm List.perm_append_comm
  simp only
  generalize (strdup h₁ exchange).1 = o1 at h3 ⊢
  generalize (strdup (strdup h₁ exchange).2 routingKey).1 = o2 at h3 ⊢
  generalize (strdup (strdup h₁ exchange).2 routingKey).2 = h₃ at h3 ⊢
  by_cases hsize : 0 < bodySize
  · rw [if_pos hsize]
    have l3 := Alloc.ledger_request h₃ Kind.plain bodySize.toNat
    cases e3 : malloc h₃ bodySize.toNat with
    | mk block h₄ =>
    rw [show h₃.request Kind.plain _ = (block, h₄) from e3] at l3
    cases block with
    | none =>
      have hall : Alloc.Ledger h h₄ (o1.toList ++ o2.toList ++ [message] ++ []) := h3.trans l3
      exact hall.frees
    | some block =>
      refine (h3.trans l3).perm ?_
      simp only [held, Message.blocks, Option.map_some, Option.getD_some, Option.toList_some, List.append_assoc]
      exact (List.perm_append_comm.append_left _).append_left _
  · rw [if_neg hsize]
    exact h3

theorem create_addr {exchange routingKey : Option CString} {body : Option Bytes} {bodySize : UInt64} {h h' : Heap}
    {m : Message} (hc : messageCreate exchange routingKey body bodySize h = (some m, h')) : m.addr.kind = .message := by
  have hkind : ∀ {p : Ptr} {h h' : Heap}, mallocMessage h = (some p, h') → p.kind = .message := by
    intro p h h' e
    unfold mallocMessage Alloc.Heap.request at e
    split at e
    · cases e
    · cases e; rfl
  unfold messageCreate at hc
  split at hc
  case h_2 => cases hc
  split at hc
  · cases hc
  cases e : mallocMessage h with
  | mk p h₁ =>
  rw [e] at hc
  cases p with
  | none => cases hc
  | some p =>
    simp only at hc
    split at hc
    · split at hc
      · cases hc
      · cases hc; exact hkind e
    · cases hc; exact hkind e

/-- How many of its three pointers are not NULL. -/
def Fields.pointers (m : Fields) : Nat := m.exchange.toList.length + m.routingKey.toList.length + m.body.toList.length

/-- A block for each pointer that is not NULL. -/
theorem create_owned {exchange routingKey : Option CString} {body : Option Bytes} {bodySize : UInt64} {h h' : Heap}
    {m : Message} (hc : messageCreate exchange routingKey body bodySize h = (some m, h')) :
    m.owned.length = m.pointers := by
  have hdup : ∀ (p : Option Ptr) (s : CString), (p.map fun _ => s).toList.length = p.toList.length := by
    intro p s
    cases p with
    | none => rfl
    | some p => rfl
  unfold messageCreate at hc
  split at hc
  case h_2 => cases hc
  split at hc
  · cases hc
  rename_i hnull
  split at hc
  · cases hc
  simp only at hc
  split at hc
  · rename_i hsize
    split at hc
    · cases hc
    · cases hc
      cases body with
      | none => exact absurd ⟨rfl, hsize⟩ hnull
      | some body => simp only [Fields.pointers, hdup, List.length_append, Option.map_some, Option.toList_some, List.length_singleton]
  · cases hc
    simp only [Fields.pointers, hdup, List.length_append, Option.toList_none, List.length_nil, Nat.add_zero]

/-! ## What a copy says -/

theorem create_fields {h : Heap} (hg : h.AllGranted) (exchange routingKey : CString) {body : Option Bytes}
    {bodySize : UInt64} (hb : ¬ (body = none ∧ 0 < bodySize)) :
    ∃ m h', messageCreate (some exchange) (some routingKey) body bodySize h = (some m, h') ∧ h'.AllGranted ∧
      m.toFields = { exchange := some exchange, routingKey := some routingKey,
                     body := if 0 < bodySize then body.map (·.take bodySize.toNat) else none, bodySize,
                     priority := 0, expiration := 0, persistent := 0 } := by
  obtain ⟨p0, h0, e0, g0⟩ := Alloc.request_granted hg .message 56
  obtain ⟨p1, h1, e1, g1⟩ := Alloc.request_granted g0 .plain (exchange.strlen + 1)
  obtain ⟨p2, h2, e2, g2⟩ := Alloc.request_granted g1 .plain (routingKey.strlen + 1)
  obtain ⟨p3, h3, e3, g3⟩ := Alloc.request_granted g2 .plain bodySize.toNat
  simp only [messageCreate, if_neg hb, mallocMessage, strdup, malloc, e0, e1, e2, e3]
  by_cases hsize : 0 < bodySize
  · rw [if_pos hsize]
    exact ⟨_, _, rfl, g3, by rw [if_pos hsize]; rfl⟩
  · have hz : bodySize = 0 := by simpa using hsize
    rw [if_neg hsize]
    exact ⟨_, _, rfl, g2, by rw [if_neg hsize, hz]; rfl⟩

/-- The fields of `m`, but for strings that could not be copied. -/
structure CopyOf (m v : Fields) : Prop where
  exchange : m.exchange = none ∨ m.exchange = v.exchange
  routingKey : m.routingKey = none ∨ m.routingKey = v.routingKey
  body : m.body = v.body
  bodySize : m.bodySize = v.bodySize
  priority : m.priority = v.priority
  expiration : m.expiration = v.expiration
  persistent : m.persistent = v.persistent

/-- Both strings are there. -/
def Named (m : Fields) : Prop := m.exchange ≠ none ∧ m.routingKey ≠ none

instance (m : Fields) : Decidable (Named m) := inferInstanceAs (Decidable (_ ∧ _))

theorem CopyOf.eq {m v : Fields} (h : CopyOf m v) (hm : Named m) : m = v := by
  have he : m.exchange = v.exchange := h.exchange.resolve_left hm.1
  have hk : m.routingKey = v.routingKey := h.routingKey.resolve_left hm.2
  obtain ⟨e, k, b, n, p, x, d⟩ := m
  obtain ⟨e', k', b', n', p', x', d'⟩ := v
  cases he
  cases hk
  cases h.body
  cases h.bodySize
  cases h.priority
  cases h.expiration
  cases h.persistent
  rfl

/-- Whatever requests are refused. -/
theorem create_copies {exchange routingKey : CString} {body : Option Bytes} {bodySize : UInt64} {h h' : Heap} {m : Message}
    (hc : messageCreate (some exchange) (some routingKey) body bodySize h = (some m, h')) :
    CopyOf m.toFields { exchange := some exchange, routingKey := some routingKey,
                        body := if 0 < bodySize then body.map (·.take bodySize.toNat) else none, bodySize,
                        priority := 0, expiration := 0, persistent := 0 } := by
  have hdup : ∀ (p : Option Ptr) (s : CString), (p.map fun _ => s) = none ∨ (p.map fun _ => s) = some s := by
    intro p s
    cases p with
    | none => exact Or.inl rfl
    | some p => exact Or.inr rfl
  simp only [messageCreate] at hc
  split at hc
  · cases hc
  split at hc
  · cases hc
  split at hc
  · rename_i hsize
    split at hc
    · cases hc
    · cases hc
      exact ⟨hdup _ _, hdup _ _, (if_pos hsize).symm, rfl, rfl, rfl, rfl⟩
  · rename_i hsize
    have hz : bodySize = 0 := by simpa using hsize
    cases hc
    exact ⟨hdup _ _, hdup _ _, (if_neg hsize).symm, hz.symm, rfl, rfl, rfl⟩

theorem clone_ledger (m : Message) (h : Heap) :
    Alloc.Ledger h (messageClone m h).2 (held (messageClone m h).1) := by
  have := create_ledger m.exchange m.routingKey m.body m.bodySize h
  unfold messageClone
  cases hc : messageCreate m.exchange m.routingKey m.body m.bodySize h with
  | mk c h' =>
  rw [hc] at this
  cases c with
  | none => exact this
  | some c => exact this

/-- A clone is a message created with the same strings and body, then given the properties. -/
theorem clone_some {m c : Message} {h h' : Heap} (hc : messageClone m h = (some c, h')) :
    ∃ o, messageCreate m.exchange m.routingKey m.body m.bodySize h = (some o, h') ∧
      c = { o with priority := m.priority, expiration := m.expiration, persistent := m.persistent } := by
  unfold messageClone at hc
  cases e : messageCreate m.exchange m.routingKey m.body m.bodySize h with
  | mk o h₁ =>
  rw [e] at hc
  cases o with
  | none => cases hc
  | some o =>
    cases hc
    exact ⟨o, rfl, rfl⟩

theorem clone_addr {m c : Message} {h h' : Heap} (hc : messageClone m h = (some c, h')) : c.addr.kind = .message := by
  obtain ⟨o, e, rfl⟩ := clone_some hc
  have hkind : o.addr.kind = .message := create_addr e
  exact hkind

/-- The body is there when there is a size, with as many bytes. -/
def Sized (m : Fields) : Prop :=
  (m.bodySize = 0 ∧ m.body = none) ∨ (0 < m.bodySize ∧ ∃ b, m.body = some b ∧ b.length = m.bodySize.toNat)

theorem CopyOf.sized {m v : Fields} (h : CopyOf m v) (hv : Sized v) : Sized m := by
  rwa [Sized, h.body, h.bodySize]

/-- Only a message with both strings is cloned. -/
theorem clone_copies {m c : Message} {h h' : Heap} (hm : Sized m.toFields) (hc : messageClone m h = (some c, h')) :
    Named m.toFields ∧ CopyOf c.toFields m.toFields := by
  obtain ⟨o, e, rfl⟩ := clone_some hc
  cases hx : m.exchange with
  | none =>
    rw [hx] at e
    cases e
  | some exchange =>
  cases hk : m.routingKey with
  | none =>
    rw [hx, hk] at e
    cases e
  | some routingKey =>
  rw [hx, hk] at e
  have hcopy := create_copies e
  refine ⟨⟨by rw [hx]; exact Option.some_ne_none _, by rw [hk]; exact Option.some_ne_none _⟩, ?_, ?_, ?_, hcopy.bodySize,
    rfl, rfl, rfl⟩
  · rw [hx]
    exact hcopy.exchange
  · rw [hk]
    exact hcopy.routingKey
  · show o.body = m.body
    rw [hcopy.body]
    rcases hm with ⟨h0, hnone⟩ | ⟨hpos, b, hb, hlen⟩
    · rw [h0, hnone]
      rfl
    · rw [if_pos hpos, hb, Option.map_some, ← hlen, List.take_length]

theorem addr_mem_blocks (m : Message) : m.addr ∈ m.blocks :=
  List.mem_append_right _ (List.mem_singleton_self _)

end RabbitMQ.Core
