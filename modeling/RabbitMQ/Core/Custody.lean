/-
  RabbitMQ.Core.Custody — what `receive_message_data` owns when it returns.

  Each stage is given the blocks read so far and frees them where it gives up, so at every
  exit the ledger of the whole call is even: NULL keeps nothing, a message keeps its own
  blocks and nothing else (`receive_ledger`, `decoder_releases_all`). This holds for every
  byte stream, every way the reads go and every pattern of refused requests.
-/

import RabbitMQ.Core.Wire

namespace RabbitMQ.Core

open Lib
open Lib.Reader (attempt)

/-- Since `h`, a result keeps `keeps`, and no result keeps nothing. -/
structure Settled (h : Heap) {γ : Type} (keeps : γ → List Ptr) (r : Option γ × World) : Prop where
  none : r.1 = none → Alloc.Ledger h r.2.heap []
  some : ∀ v, r.1 = some v → Alloc.Ledger h r.2.heap (keeps v)

section Stages

variable {h : Heap} {γ δ : Type} {keeps : γ → List Ptr}

theorem settled_none {w : World} (hl : Alloc.Ledger h w.heap []) : Settled h keeps (none, w) where
  none _ := hl
  some _ e := by cases e

theorem settled_some {v : γ} {w : World} (hl : Alloc.Ledger h w.heap (keeps v)) : Settled h keeps (some v, w) where
  none e := by cases e
  some _ e := by cases e; exact hl

theorem settled_attempt {r : Option δ × World} {exit : World → World} {g : δ → World → Option γ × World}
    (hnone : r.1 = none → Alloc.Ledger h (exit r.2).heap []) (hsome : ∀ v, r.1 = some v → Settled h keeps (g v r.2)) :
    Settled h keeps (attempt r exit g) := by
  obtain ⟨v, w⟩ := r
  cases v with
  | none => exact settled_none (hnone rfl)
  | some v => exact hsome v rfl

/-- A stage that settled what came before it, then one that settles on. -/
theorem settled_then {keeps' : δ → List Ptr} {r : Option δ × World} {g : δ → World → Option γ × World}
    (hr : Settled h keeps' r) (hg : ∀ v w, Alloc.Ledger h w.heap (keeps' v) → Settled h keeps (g v w)) :
    Settled h keeps (attempt r id g) :=
  settled_attempt hr.none fun v e => hg v r.2 (hr.some v e)

@[simp] theorem recvFull_heap (n : Nat) (w : World) : (recvFull n w).2.heap = w.heap := by
  simp only [recvFull, recv]
  split <;> rfl

@[simp] theorem recvInto_heap (buf : Ptr) (n : Nat) (w : World) : (recvInto buf n w).2.heap = w.heap := by
  simp only [recvInto, recvFull_heap]

/-- Giving back all that is held. -/
theorem ledger_release {held : List Ptr} {w : World} (hl : Alloc.Ledger h w.heap held) :
    Alloc.Ledger h (release held w).heap [] :=
  Alloc.Ledger.frees (by rwa [List.append_nil])

theorem ledger_malloc {held : List Ptr} {heap : Heap} (hl : Alloc.Ledger h heap held) (n : Nat) :
    Alloc.Ledger h (malloc heap n).2 (held ++ (malloc heap n).1.toList) :=
  hl.trans (Alloc.ledger_request heap .plain n)

/-- A read that is checked before anything else is asked for. -/
theorem settled_read {held : List Ptr} {n : Nat} {w : World} (hl : Alloc.Ledger h w.heap held)
    {g : Bytes → World → Option γ × World} (hg : ∀ bs w', w'.heap = w.heap → Settled h keeps (g bs w')) :
    Settled h keeps (attempt (recvFull n w) (release held) g) := by
  refine settled_attempt (fun _ => ledger_release ?_) fun bs _ => hg bs _ (recvFull_heap n w)
  rwa [recvFull_heap]

theorem settled_readInto {held : List Ptr} {buf : Ptr} {n : Nat} {w : World} (hl : Alloc.Ledger h w.heap held)
    {g : Bytes → World → Option γ × World} (hg : ∀ bs w', w'.heap = w.heap → Settled h keeps (g bs w')) :
    Settled h keeps (attempt (recvInto buf n w) (release held) g) := by
  refine settled_attempt (fun _ => ledger_release ?_) fun bs _ => hg bs _ (recvInto_heap buf n w)
  rwa [recvInto_heap]

/-- A buffer asked for: refused, all that is held is given back. -/
theorem settled_malloc {held : List Ptr} {n : Nat} {w : World} {r : Option γ × World} (hl : Alloc.Ledger h w.heap held)
    (hnone : ∀ heap, malloc w.heap n = (none, heap) → r = (none, release held { w with heap, errno := ENOMEM }))
    (hsome : ∀ buf heap, malloc w.heap n = (some buf, heap) → Alloc.Ledger h heap (held ++ [buf]) → Settled h keeps r) :
    Settled h keeps r := by
  have hm := ledger_malloc hl n
  cases e : malloc w.heap n with
  | mk buf heap =>
  rw [e] at hm
  cases buf with
  | none =>
    rw [Option.toList_none, List.append_nil] at hm
    rw [hnone heap e]
    exact settled_none (ledger_release hm)
  | some buf => exact hsome buf heap e hm

end Stages

/-! ## The stages -/

section Receive

variable {h : Heap}

theorem recvString_settled {held : List Ptr} {w : World} (hl : Alloc.Ledger h w.heap held) :
    Settled h (fun r => held ++ [r.1]) (recvString held w) := by
  apply settled_read hl
  intro len w' hw
  refine settled_malloc (n := (UInt32.ofNat (Bytes.ofLE len) + 1).toNat) (hw ▸ hl) (fun heap e => ?_) fun buf heap e hm => ?_
  · simp only [e]
  · simp only [e]
    refine settled_readInto hm fun bs w'' hw' => settled_some ?_
    rw [hw']
    exact hm

theorem recvBody_settled {held : List Ptr} {w : World} (hl : Alloc.Ledger h w.heap held) :
    Settled h (fun r => held ++ (r.2.map (·.1)).toList) (recvBody held w) := by
  apply settled_read hl
  intro size w' hw
  simp only
  by_cases hpos : 0 < UInt32.ofNat (Bytes.ofLE size)
  · rw [if_pos hpos]
    refine settled_malloc (n := (UInt32.ofNat (Bytes.ofLE size)).toNat) (hw ▸ hl) (fun heap e => ?_) fun buf heap e hm => ?_
    · simp only [e]
    · simp only [e]
      refine settled_readInto hm fun bs w'' hw' => settled_some ?_
      rw [hw']
      exact hm
  · rw [if_neg hpos]
    apply settled_some
    rw [hw, Option.map_none, Option.toList_none, List.append_nil]
    exact hl

theorem recvCreate_settled {exchange routingKey : Ptr × CString} {body : UInt32 × Option (Ptr × Bytes)} {w : World}
    (hl : Alloc.Ledger h w.heap ([exchange.1] ++ [routingKey.1] ++ (body.2.map (·.1)).toList)) :
    Settled h Message.blocks (recvCreate exchange routingKey body w) := by
  have hc := hl.trans (create_ledger (some exchange.2) (some routingKey.2) (body.2.map (·.2)) body.1.toUInt64 w.heap)
  have hfree := hc.frees
  constructor
  · intro e
    have e' : (messageCreate (some exchange.2) (some routingKey.2) (body.2.map (·.2)) body.1.toUInt64 w.heap).1 = none := e
    rw [e'] at hfree
    exact hfree
  · intro m e
    have e' : (messageCreate (some exchange.2) (some routingKey.2) (body.2.map (·.2)) body.1.toUInt64 w.heap).1 = some m := e
    rw [e'] at hfree
    exact hfree

theorem recvProperties_settled {m : Message} {w : World} (hl : Alloc.Ledger h w.heap m.blocks) :
    Settled h Message.blocks (recvProperties m w) := by
  have hexit : ∀ {w' : World}, w'.heap = w.heap → Alloc.Ledger h (messageFree m w'.heap) [] := by
    intro w' hw
    rw [hw]
    exact Alloc.Ledger.frees (by rwa [List.append_nil])
  refine settled_attempt (fun _ => hexit (recvFull_heap _ _)) fun p _ => ?_
  refine settled_attempt (fun _ => hexit (by simp)) fun x _ => ?_
  refine settled_attempt (fun _ => hexit (by simp)) fun d _ => ?_
  apply settled_some
  simp only [recvFull_heap]
  exact hl

/-- NULL keeps nothing, a message its own blocks. -/
theorem receive_ledger (fd : Int) (w : World) : Settled w.heap Message.blocks (receiveMessageData fd w) := by
  have h0 := Alloc.ledger_refl w.heap
  have hfail : ∀ {w' : World}, w'.heap = w.heap → Settled w.heap Message.blocks (none, w') := by
    intro w' hw
    apply settled_none
    rw [hw]
    exact h0
  unfold receiveMessageData
  by_cases hfd : fd < 0
  · rw [if_pos hfd]
    exact hfail rfl
  rw [if_neg hfd]
  apply settled_attempt
  · intro _
    rw [id, recvFull_heap]
    exact h0
  intro magic _
  by_cases hmagic : UInt32.ofNat (Bytes.ofLE magic) ≠ MESSAGE_MAGIC
  · rw [if_pos hmagic]
    exact hfail (recvFull_heap 4 w)
  rw [if_neg hmagic]
  have h1 : Alloc.Ledger w.heap (recvFull 4 w).2.heap [] := by
    rw [recvFull_heap]
    exact h0
  apply settled_then (recvString_settled h1)
  intro exchange w1 hl1
  apply settled_then (recvString_settled hl1)
  intro routingKey w2 hl2
  apply settled_then (recvBody_settled hl2)
  intro body w3 hl3
  exact settled_then (recvCreate_settled hl3) fun m w4 hl4 => recvProperties_settled hl4

/-- What is returned was made by `message_create`; only the properties are read into it. -/
theorem receive_created {fd : Int} {w w' : World} {m : Message} (hr : receiveMessageData fd w = (some m, w')) :
    ∃ exchange routingKey body bodySize heap heap' c, messageCreate exchange routingKey body bodySize heap = (some c, heap') ∧
      m.addr = c.addr ∧ m.owned = c.owned ∧ m.pointers = c.pointers := by
  have hprops : ∀ {c : Message} {w w' : World}, recvProperties c w = (some m, w') →
      m.addr = c.addr ∧ m.owned = c.owned ∧ m.pointers = c.pointers := by
    intro c w w' h
    obtain ⟨p, w1, -, h⟩ := Reader.attempt_some h
    obtain ⟨x, w2, -, h⟩ := Reader.attempt_some h
    obtain ⟨d, w3, -, h⟩ := Reader.attempt_some h
    cases h
    exact ⟨rfl, rfl, rfl⟩
  unfold receiveMessageData at hr
  split at hr
  · cases hr
  obtain ⟨magic, w1, -, hr⟩ := Reader.attempt_some hr
  split at hr
  · cases hr
  obtain ⟨exchange, w2, -, hr⟩ := Reader.attempt_some hr
  obtain ⟨routingKey, w3, -, hr⟩ := Reader.attempt_some hr
  obtain ⟨body, w4, -, hr⟩ := Reader.attempt_some hr
  obtain ⟨c, w5, hc, hr⟩ := Reader.attempt_some hr
  cases e : messageCreate (some exchange.2) (some routingKey.2) (body.2.map (·.2)) body.1.toUInt64 w4.heap with
  | mk o heap =>
  rw [recvCreate, e] at hc
  cases hc
  exact ⟨_, _, _, _, _, _, c, e, hprops hr⟩

theorem receive_addr {fd : Int} {w w' : World} {m : Message} (hr : receiveMessageData fd w = (some m, w')) :
    m.addr.kind = .message := by
  obtain ⟨exchange, routingKey, body, bodySize, heap, heap', c, hc, haddr, -, -⟩ := receive_created hr
  rw [haddr]
  exact create_addr hc

/-- NULL leaves nothing; a message leaves its struct and a block for each pointer in it, and
    nothing is left once it is freed. -/
theorem decoder_releases_all (fd : Int) (w : World) :
    (∀ w', receiveMessageData fd w = (none, w') → Alloc.Accounts w.heap w'.heap []) ∧
      ∀ m w', receiveMessageData fd w = (some m, w') →
        Alloc.Accounts w.heap w'.heap m.blocks ∧ m.blocks.length = 1 + m.pointers ∧
          Alloc.Accounts w.heap (messageFree m w'.heap) [] := by
  have hledger := receive_ledger fd w
  constructor
  · intro w' hr
    rw [hr] at hledger
    exact (hledger.none rfl).accounts
  · intro m w' hr
    rw [hr] at hledger
    have hkept := hledger.some m rfl
    obtain ⟨exchange, routingKey, body, bodySize, heap, heap', c, hc, -, howned, hpointers⟩ := receive_created hr
    refine ⟨hkept.accounts, ?_, ?_⟩
    · rw [Message.blocks, List.length_append, howned, create_owned hc, hpointers, List.length_singleton, Nat.add_comm]
    · exact Alloc.Ledger.accounts (Alloc.Ledger.frees (by rwa [List.append_nil]))

end Receive

end RabbitMQ.Core
