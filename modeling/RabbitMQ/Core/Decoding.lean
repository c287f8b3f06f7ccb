/-
  RabbitMQ.Core.Decoding — what `receive_message_data` makes of any bytes.

  `decode` is the reader on a list of bytes: no socket, no heap. However the reads and the
  requests for memory go, a message accepted is the one decoded, but for names that could
  not be copied (`receive_follows`). Where every `recv` returns all that is there of what it
  asks for, and no request is refused, the reader does what `decode` does, call after call
  (`receive_decodes`, `attempts_decode`). A message decoded depends on its own bytes only (`decode_exact`); once
  the magic number is read, a failure has taken everything there was (`decodeRest_drains`).
-/

import RabbitMQ.Core.Framing

namespace RabbitMQ.Core

open Lib
open Lib.Bytes (leBytes ofLE)
open Lib.Reader (attempt attempts exactly Simulates Exact Drains)

/-! ## The decoder -/

def decodeString (bs : Bytes) : Option CString × Bytes :=
  attempt (exactly 4 bs) id fun len bs =>
  attempt (exactly (UInt32.ofNat (ofLE len)).toNat bs) id fun bytes bs => (some (CString.ofBuffer bytes), bs)

def decodeBody (bs : Bytes) : Option (UInt32 × Option Bytes) × Bytes :=
  attempt (exactly 4 bs) id fun size bs =>
  let size := UInt32.ofNat (ofLE size)
  if 0 < size then attempt (exactly size.toNat bs) id fun bytes bs => (some (size, some bytes), bs)
  else (some (size, none), bs)

def decodeProperties (m : Fields) (bs : Bytes) : Option Fields × Bytes :=
  attempt (exactly 4 bs) id fun priority bs =>
  attempt (exactly 8 bs) id fun expiration bs =>
  attempt (exactly 1 bs) id fun persistent bs =>
  (some { m with priority := UInt32.ofNat (ofLE priority), expiration := UInt64.ofNat (ofLE expiration),
                 persistent := UInt8.ofNat (ofLE persistent) }, bs)

/-- All but the magic number. -/
def decodeRest (bs : Bytes) : Option Fields × Bytes :=
  attempt (decodeString bs) id fun exchange bs =>
  attempt (decodeString bs) id fun routingKey bs =>
  attempt (decodeBody bs) id fun body bs =>
  decodeProperties { exchange := some exchange, routingKey := some routingKey, body := body.2,
                     bodySize := body.1.toUInt64, priority := 0, expiration := 0, persistent := 0 } bs

def decode (bs : Bytes) : Option Fields × Bytes :=
  attempt (exactly 4 bs) id fun magic bs =>
  if UInt32.ofNat (ofLE magic) ≠ MESSAGE_MAGIC then (none, bs) else decodeRest bs

/-! ## The reader, whatever goes wrong -/

/-- The bytes ahead, however the calls will go. -/
def Offers (w : World) (bs : Bytes) : Prop := w.inlet.input = bs

theorem recvFull_follows (n : Nat) : Reader.Follows Offers (recvFull n) (· = ·) (exactly n) := by
  intro w bs h v w' hv
  subst h
  unfold recvFull recv at hv
  cases hout : w.inlet.outcome w.inlet.calls with
  | error errno =>
    simp only [hout] at hv
    cases hv
  | upTo k =>
    simp only [hout, Option.bind_some] at hv
    split at hv
    · rename_i hlen
      cases hv
      rw [List.length_take] at hlen
      have hmin : min n (max 1 k) = n := by omega
      refine ⟨_, _, ?_, rfl, rfl⟩
      rw [hmin, exactly, if_pos (by omega)]
    · cases hv

theorem recvInto_follows (buf : Ptr) (n : Nat) : Reader.Follows Offers (recvInto buf n) (· = ·) (exactly n) := by
  intro w bs h v w' hv
  cases hv' : recvFull n w with
  | mk o w1 =>
  simp only [recvInto, hv'] at hv
  cases hv
  exact recvFull_follows n w bs h v w1 hv'

/-- A request for memory, granted or not, between two reads. -/
theorem follows_malloc {γ δ : Type} {n : Nat} {f : World → Option γ × World} {g : Ptr → World → Option γ × World}
    {like : γ → δ → Prop} {d : Bytes → Option δ × Bytes}
    (hnone : ∀ w heap, malloc w.heap n = (none, heap) → (f w).1 = none)
    (hsome : ∀ w buf heap, malloc w.heap n = (some buf, heap) → f w = g buf { w with heap })
    (hg : ∀ buf, Reader.Follows Offers (g buf) like d) : Reader.Follows Offers f like d := by
  intro w bs h v w' hv
  cases e : malloc w.heap n with
  | mk buf heap =>
  cases buf with
  | none =>
    have hno := hnone w heap e
    rw [hv] at hno
    cases hno
  | some buf =>
    rw [hsome w buf heap e] at hv
    exact hg buf { w with heap } bs h v w' hv

theorem recvString_follows (held : List Ptr) : Reader.Follows Offers (recvString held) (fun r u => r.2 = u) decodeString := by
  refine Reader.follows_attempt _ (recvFull_follows 4) fun len _ he => ?_
  subst he
  refine follows_malloc (n := (UInt32.ofNat (ofLE len) + 1).toNat)
    (g := fun buf w => attempt (recvInto buf (UInt32.ofNat (ofLE len)).toNat w) (release (held ++ [buf])) fun bytes w =>
      (some (buf, CString.ofBuffer bytes), { w with writes := w.writes ++ [(buf, (UInt32.ofNat (ofLE len)).toNat + 1)] }))
    (fun w heap e => by simp only [e]) (fun w buf heap e => by simp only [e]) fun buf => ?_
  refine Reader.follows_attempt _ (recvInto_follows buf _) fun bytes _ he => ?_
  subst he
  intro w bs h v w' hv
  cases hv
  exact ⟨_, bs, rfl, rfl, h⟩

/-- A body has the size read. -/
def BodyRead (body : UInt32 × Option Bytes) : Prop :=
  (body.1 = 0 ∧ body.2 = none) ∨ (0 < body.1 ∧ ∃ b, body.2 = some b ∧ b.length = body.1.toNat)

/-- A read of `n` bytes returns `n`. -/
theorem recvInto_length {buf : Ptr} {n : Nat} {w w' : World} {bytes : Bytes} (h : recvInto buf n w = (some bytes, w')) :
    bytes.length = n := by
  obtain ⟨u, rest, hexact, rfl, -⟩ := recvInto_follows buf n w _ rfl bytes w' h
  obtain ⟨hle, hbytes, -⟩ := Reader.exactly_some hexact
  rw [hbytes, List.length_take_of_le hle]

theorem recvBody_follows (held : List Ptr) :
    Reader.Follows Offers (recvBody held) (fun r u => (r.1, r.2.map (·.2)) = u ∧ BodyRead u) decodeBody := by
  refine Reader.follows_attempt _ (recvFull_follows 4) fun size _ he => ?_
  subst he
  by_cases hpos : 0 < UInt32.ofNat (ofLE size)
  · simp only [if_pos hpos]
    refine follows_malloc (n := (UInt32.ofNat (ofLE size)).toNat)
      (g := fun buf w => attempt (recvInto buf (UInt32.ofNat (ofLE size)).toNat w) (release (held ++ [buf])) fun bytes w =>
        (some (UInt32.ofNat (ofLE size), some (buf, bytes)), w))
      (fun w heap e => by simp only [e]) (fun w buf heap e => by simp only [e]) fun buf => ?_
    intro w bs h v w' hv
    obtain ⟨bytes, w1, hread, hdone⟩ := Reader.attempt_some hv
    cases hdone
    obtain ⟨u, rest, hexact, rfl, hrest⟩ := recvInto_follows buf _ w bs h bytes w' hread
    refine ⟨_, rest, ?_, ⟨rfl, Or.inr ⟨hpos, bytes, rfl, recvInto_length hread⟩⟩, hrest⟩
    simp only [hexact, attempt, Option.map_some]
  · simp only [if_neg hpos]
    intro w bs h v w' hv
    cases hv
    exact ⟨_, bs, rfl, ⟨rfl, Or.inl ⟨by simpa using hpos, rfl⟩⟩, h⟩

theorem recvBody_reads {held : List Ptr} {w : World} {body : UInt32 × Option (Ptr × Bytes)}
    (h : (recvBody held w).1 = some body) : BodyRead (body.1, body.2.map (·.2)) := by
  obtain ⟨u, -, -, ⟨rfl, hread⟩, -⟩ := recvBody_follows held w _ rfl body _ (Prod.ext h rfl)
  exact hread

theorem recvProperties_follows {m : Message} {v : Fields} (hm : CopyOf m.toFields v) :
    Reader.Follows Offers (recvProperties m) (fun r u => CopyOf r.toFields u) (decodeProperties v) := by
  refine Reader.follows_attempt _ (recvFull_follows 4) fun priority _ he => ?_
  subst he
  refine Reader.follows_attempt _ (recvFull_follows 8) fun expiration _ he => ?_
  subst he
  refine Reader.follows_attempt _ (recvFull_follows 1) fun persistent _ he => ?_
  subst he
  intro w bs h r w' hr
  cases hr
  exact ⟨_, bs, rfl, ⟨hm.exchange, hm.routingKey, hm.body, hm.bodySize, rfl, rfl, rfl⟩, h⟩

/-- Such a body is copied whole. -/
theorem BodyRead.copied {size : UInt32} {body : Option Bytes} (h : BodyRead (size, body)) :
    (if 0 < size.toUInt64 then body.map (·.take size.toUInt64.toNat) else none) = body ∧ ¬ (body = none ∧ 0 < size.toUInt64) := by
  have h : (size = 0 ∧ body = none) ∨ (0 < size ∧ ∃ b, body = some b ∧ b.length = size.toUInt64.toNat) := h
  rcases h with ⟨rfl, rfl⟩ | ⟨hpos, b, rfl, hlen⟩
  · exact ⟨rfl, fun h => absurd h.2 (by decide)⟩
  · have hpos : 0 < size.toUInt64 := by
      rw [UInt64.lt_iff_toNat_lt, UInt32.toNat_toUInt64]
      exact UInt32.lt_iff_toNat_lt.mp hpos
    rw [if_pos hpos, Option.map_some, ← hlen, List.take_length]
    exact ⟨rfl, fun h => by cases h.1⟩

theorem recvCreate_follows (exchange routingKey : Ptr × CString) {body : UInt32 × Option (Ptr × Bytes)}
    (hbody : BodyRead (body.1, body.2.map (·.2))) :
    Reader.Follows Offers (recvCreate exchange routingKey body) (fun m u => CopyOf m.toFields u) fun bs =>
      (some { exchange := some exchange.2, routingKey := some routingKey.2, body := body.2.map (·.2),
              bodySize := body.1.toUInt64, priority := 0, expiration := 0, persistent := 0 }, bs) := by
  intro w bs h m w' hm
  cases e : messageCreate (some exchange.2) (some routingKey.2) (body.2.map (·.2)) body.1.toUInt64 w.heap with
  | mk o heap =>
  rw [recvCreate, e] at hm
  cases hm
  have hcopy := create_copies e
  refine ⟨_, bs, rfl, ⟨hcopy.exchange, hcopy.routingKey, hcopy.body.trans hbody.copied.1, hcopy.bodySize, hcopy.priority,
    hcopy.expiration, hcopy.persistent⟩, h⟩

/-- A message accepted is the one decoded, but for names that could not be copied, whatever
    the schedule of reads and of refused requests. -/
theorem receive_follows {fd : Int} (hfd : 0 ≤ fd) :
    Reader.Follows Offers (receiveMessageData fd) (fun m u => CopyOf m.toFields u) decode := by
  have hneg : ¬ fd < 0 := by omega
  unfold receiveMessageData
  simp only [if_neg hneg]
  refine Reader.follows_attempt _ (recvFull_follows 4) fun magic _ he => ?_
  subst he
  by_cases hmagic : UInt32.ofNat (ofLE magic) ≠ MESSAGE_MAGIC
  · simp only [if_pos hmagic]
    intro w bs h v w' hv
    cases hv
  · simp only [if_neg hmagic]
    refine Reader.follows_attempt _ (recvString_follows _) fun exchange _ he => ?_
    subst he
    refine Reader.follows_attempt _ (recvString_follows _) fun routingKey _ he => ?_
    subst he
    refine Reader.follows_attempt _ (recvBody_follows _) fun body _ hbody => ?_
    obtain ⟨he, hread⟩ := hbody
    subst he
    have hcreate := recvCreate_follows exchange routingKey hread
    have hmade := Reader.follows_attempt id hcreate fun m u hm => recvProperties_follows hm
    exact hmade

theorem received {fd : Int} {w w' : World} {m : Message} (h : receiveMessageData fd w = (some m, w')) :
    ∃ v, decode w.inlet.input = (some v, w'.inlet.input) ∧ CopyOf m.toFields v := by
  by_cases hfd : fd < 0
  · rw [receiveMessageData, if_pos hfd] at h
    cases h
  · obtain ⟨v, rest, hdecode, hcopy, hrest⟩ := receive_follows (by omega) w _ rfl m w' h
    exact ⟨v, by rw [hdecode, ← hrest], hcopy⟩

/-! ## The reader, with no read cut short -/

/-- A reader with `bs` ahead, every read full. -/
def Facing (cuts : Nat → Nat) (errno : Nat) (w : World) (bs : Bytes) : Prop := ∃ k, Ahead cuts errno w bs k

section Stages

variable {cuts : Nat → Nat} {errno : Nat}

theorem facing_release (held : List Ptr) {w : World} {bs : Bytes} (h : Facing cuts errno w bs) :
    Facing cuts errno (release held w) bs := by
  obtain ⟨k, h⟩ := h
  exact ⟨k, cutting_release held h.cutting, h.input, h.calls⟩

theorem facing_wrote {w : World} {bs : Bytes} (h : Facing cuts errno w bs) (writes : List (Ptr × Nat)) :
    Facing cuts errno { w with writes } bs := by
  obtain ⟨k, h⟩ := h
  exact ⟨k, h.wrote writes⟩

theorem facing_heap {w : World} {bs : Bytes} (h : Facing cuts errno w bs) {heap : Heap} (hg : heap.AllGranted) :
    Facing cuts errno { w with heap } bs := by
  obtain ⟨k, h⟩ := h
  exact ⟨k, ⟨h.cutting.reads, hg, h.cutting.errno⟩, h.input, h.calls⟩

theorem Facing.memory {w : World} {bs : Bytes} (h : Facing cuts errno w bs) : w.heap.AllGranted := by
  obtain ⟨k, h⟩ := h
  exact h.cutting.memory

theorem simulates_malloc {γ δ : Type} {n : Nat} {f : World → Option γ × World} {g : Ptr → World → Option γ × World}
    {out : γ → δ} {d : Bytes → Option δ × Bytes}
    (hf : ∀ w buf heap, malloc w.heap n = (some buf, heap) → f w = g buf { w with heap })
    (hg : ∀ buf, Simulates (Facing cuts errno) (g buf) out d) : Simulates (Facing cuts errno) f out d := by
  intro w bs h
  obtain ⟨buf, heap, e, hm⟩ := Alloc.request_granted h.memory .plain n
  rw [hf w buf heap e]
  exact hg buf _ bs (facing_heap h hm)

variable (hcuts : ∀ j, 2 ^ 32 ≤ cuts j)

include hcuts

theorem recvFull_exactly {n : Nat} (hn : n ≤ 2 ^ 32) : Simulates (Facing cuts errno) (recvFull n) id (exactly n) := by
  intro w bs h
  obtain ⟨k, h⟩ := h
  obtain ⟨w', e, h'⟩ := recv_upTo h n
  have hall := hcuts k
  have hmin : min n (max 1 (cuts k)) = n := by omega
  rw [hmin] at e h'
  simp only [recvFull, e, Option.bind_some, exactly, List.length_take]
  by_cases hle : n ≤ bs.length
  · rw [if_pos (Nat.min_eq_left hle), if_pos hle]
    exact ⟨rfl, k + 1, h'⟩
  · have hshort : min n bs.length ≠ n := by omega
    rw [if_neg hshort, if_neg hle]
    rw [List.drop_of_length_le (by omega)] at h'
    exact ⟨rfl, k + 1, h'⟩

theorem recvInto_exactly (buf : Ptr) {n : Nat} (hn : n ≤ 2 ^ 32) :
    Simulates (Facing cuts errno) (recvInto buf n) id (exactly n) := by
  intro w bs h
  obtain ⟨hv, hr⟩ := recvFull_exactly hcuts hn w bs h
  exact ⟨hv, facing_wrote hr _⟩

omit hcuts in
theorem toNat_le (n : UInt32) : n.toNat ≤ 2 ^ 32 := by
  have := n.toNat_lt
  omega

theorem recvString_decodes (held : List Ptr) : Simulates (Facing cuts errno) (recvString held) (·.2) decodeString := by
  refine Reader.simulates_attempt (recvFull_exactly hcuts (by decide)) (fun _ _ => facing_release held) fun len _ => ?_
  refine simulates_malloc (n := (UInt32.ofNat (ofLE len) + 1).toNat)
    (g := fun buf w => attempt (recvInto buf (UInt32.ofNat (ofLE len)).toNat w) (release (held ++ [buf])) fun bytes w =>
      (some (buf, CString.ofBuffer bytes), { w with writes := w.writes ++ [(buf, (UInt32.ofNat (ofLE len)).toNat + 1)] }))
    (fun w buf heap e => by simp only [e]) fun buf => ?_
  exact Reader.simulates_attempt (recvInto_exactly hcuts buf (toNat_le _)) (fun _ _ => facing_release _)
    fun bytes _ w bs h => ⟨rfl, facing_wrote h _⟩

theorem recvBody_decodes (held : List Ptr) :
    Simulates (Facing cuts errno) (recvBody held) (fun r => (r.1, r.2.map (·.2))) decodeBody := by
  refine Reader.simulates_attempt (recvFull_exactly hcuts (by decide)) (fun _ _ => facing_release held) fun size _ => ?_
  by_cases hpos : 0 < UInt32.ofNat (ofLE size)
  · simp only [id, if_pos hpos]
    refine simulates_malloc (n := (UInt32.ofNat (ofLE size)).toNat)
      (g := fun buf w => attempt (recvInto buf (UInt32.ofNat (ofLE size)).toNat w) (release (held ++ [buf])) fun bytes w =>
        (some (UInt32.ofNat (ofLE size), some (buf, bytes)), w))
      (fun w buf heap e => by simp only [e]) fun buf => ?_
    exact Reader.simulates_attempt (recvInto_exactly hcuts buf (toNat_le _)) (fun _ _ => facing_release _)
      fun bytes _ w bs h => ⟨rfl, h⟩
  · simp only [id, if_neg hpos]
    exact fun w bs h => ⟨rfl, h⟩

theorem recvProperties_decodes (m : Message) :
    Simulates (Facing cuts errno) (recvProperties m) (·.toFields) (decodeProperties m.toFields) := by
  have hexit : ∀ (w : World) (bs : Bytes), Facing cuts errno w bs →
      Facing cuts errno { w with heap := messageFree m w.heap } bs := fun w bs h => facing_heap h h.memory
  refine Reader.simulates_attempt (recvFull_exactly hcuts (by decide)) hexit fun priority _ => ?_
  refine Reader.simulates_attempt (recvFull_exactly hcuts (by decide)) hexit fun expiration _ => ?_
  exact Reader.simulates_attempt (recvFull_exactly hcuts (by decide)) hexit fun persistent _ w bs h => ⟨rfl, h⟩

omit hcuts in
theorem recvCreate_decodes (exchange routingKey : Ptr × CString) {body : UInt32 × Option (Ptr × Bytes)}
    (hbody : BodyRead (body.1, body.2.map (·.2))) :
    Simulates (Facing cuts errno) (recvCreate exchange routingKey body) (·.toFields) fun bs =>
      (some { exchange := some exchange.2, routingKey := some routingKey.2, body := body.2.map (·.2),
              bodySize := body.1.toUInt64, priority := 0, expiration := 0, persistent := 0 }, bs) := by
  intro w bs h
  obtain ⟨hcopied, hnull⟩ := hbody.copied
  obtain ⟨m, heap, e, hm, hf⟩ := create_fields h.memory exchange.2 routingKey.2 hnull
  simp only [recvCreate, e, Option.map_some, if_neg (h.memory.not_refused heap)]
  refine ⟨?_, facing_release _ (facing_heap h hm)⟩
  rw [hf, hcopied]

theorem receive_decodes {fd : Int} (hfd : 0 ≤ fd) :
    Simulates (Facing cuts errno) (receiveMessageData fd) (·.toFields) decode := by
  have hid : ∀ (w : World) (bs : Bytes), Facing cuts errno w bs → Facing cuts errno (id w) bs := fun _ _ h => h
  have hneg : ¬ fd < 0 := by omega
  unfold receiveMessageData
  simp only [if_neg hneg]
  refine Reader.simulates_attempt (recvFull_exactly hcuts (by decide)) hid fun magic _ => ?_
  by_cases hmagic : UInt32.ofNat (ofLE magic) ≠ MESSAGE_MAGIC
  · simp only [id, if_pos hmagic]
    exact fun w bs h => ⟨rfl, h⟩
  · simp only [id, if_neg hmagic]
    refine Reader.simulates_attempt (recvString_decodes hcuts _) hid fun exchange _ => ?_
    refine Reader.simulates_attempt (recvString_decodes hcuts _) hid fun routingKey _ => ?_
    refine Reader.simulates_attempt (recvBody_decodes hcuts _) hid fun body hbody => ?_
    obtain ⟨w0, hw0⟩ := hbody
    have hcreate : Simulates (Facing cuts errno) (recvCreate exchange routingKey body) _ _ :=
      recvCreate_decodes exchange routingKey (recvBody_reads hw0)
    have hmade := Reader.simulates_attempt hcreate hid fun m _ => recvProperties_decodes hcuts m
    exact hmade

end Stages

/-- Call after call, whatever fails. -/
theorem attempts_decode {fd : Int} (hfd : 0 ≤ fd) {cuts : Nat → Nat} {errno k : Nat} {w : World} {bs : Bytes}
    (h : Ahead cuts errno w bs k) (hcuts : ∀ j, 2 ^ 32 ≤ cuts j) (n : Nat) :
    (attempts (receiveMessageData fd) n w).1.map (·.toFields) = (attempts decode n bs).1 :=
  (Reader.simulates_attempts (receive_decodes hcuts hfd) n ⟨k, h⟩).1

/-! ## What decoding depends on -/

theorem decodeString_exact : Exact decodeString :=
  Reader.exact_attempt (Reader.exactly_exact 4) fun _ =>
    Reader.exact_attempt (Reader.exactly_exact _) fun _ => Reader.exact_done _

theorem decodeBody_exact : Exact decodeBody := by
  refine Reader.exact_attempt (Reader.exactly_exact 4) fun size => ?_
  by_cases hpos : 0 < UInt32.ofNat (ofLE size)
  · simp only [if_pos hpos]
    exact Reader.exact_attempt (Reader.exactly_exact _) fun _ => Reader.exact_done _
  · simp only [if_neg hpos]
    exact Reader.exact_done _

theorem decodeProperties_exact (m : Fields) : Exact (decodeProperties m) :=
  Reader.exact_attempt (Reader.exactly_exact 4) fun _ =>
    Reader.exact_attempt (Reader.exactly_exact 8) fun _ =>
      Reader.exact_attempt (Reader.exactly_exact 1) fun _ => Reader.exact_done _

theorem decodeRest_exact : Exact decodeRest :=
  Reader.exact_attempt decodeString_exact fun _ =>
    Reader.exact_attempt decodeString_exact fun _ =>
      Reader.exact_attempt decodeBody_exact fun _ => decodeProperties_exact _

/-- A message is decoded from its bytes, whatever follows. -/
theorem decode_exact : Exact decode := by
  refine Reader.exact_attempt (Reader.exactly_exact 4) fun magic => ?_
  by_cases hmagic : UInt32.ofNat (ofLE magic) ≠ MESSAGE_MAGIC
  · simp only [if_pos hmagic]
    intro bs v rest h
    cases h
  · simp only [if_neg hmagic]
    exact decodeRest_exact

theorem decodeString_drains : Drains decodeString :=
  Reader.drains_attempt (Reader.exactly_drains 4) fun _ =>
    Reader.drains_attempt (Reader.exactly_drains _) fun _ => Reader.drains_done _

theorem decodeBody_drains : Drains decodeBody := by
  refine Reader.drains_attempt (Reader.exactly_drains 4) fun size => ?_
  by_cases hpos : 0 < UInt32.ofNat (ofLE size)
  · simp only [if_pos hpos]
    exact Reader.drains_attempt (Reader.exactly_drains _) fun _ => Reader.drains_done _
  · simp only [if_neg hpos]
    exact Reader.drains_done _

theorem decodeProperties_drains (m : Fields) : Drains (decodeProperties m) :=
  Reader.drains_attempt (Reader.exactly_drains 4) fun _ =>
    Reader.drains_attempt (Reader.exactly_drains 8) fun _ =>
      Reader.drains_attempt (Reader.exactly_drains 1) fun _ => Reader.drains_done _

/-- Past the magic number a failure has taken everything. -/
theorem decodeRest_drains : Drains decodeRest :=
  Reader.drains_attempt decodeString_drains fun _ =>
    Reader.drains_attempt decodeString_drains fun _ =>
      Reader.drains_attempt decodeBody_drains fun _ => decodeProperties_drains _

/-- A frame is decoded to its message. -/
theorem decode_frame (f : Frame) (rest : Bytes) : decode (f.encode ++ rest) = (some f.fields, rest) := by
  have hcuts : ∀ j : Nat, 2 ^ 32 ≤ (fun _ => 2 ^ 32 : Nat → Nat) j := fun _ => Nat.le_refl _
  have hahead := inletOf_ahead (f.encode ++ rest) fun _ => 2 ^ 32
  have hfd : (0 : Int) ≤ 3 := by decide
  have hg : Reader.Granted (Full fun _ => 2 ^ 32) 0 f.requests := by
    rw [Reader.granted_iff]
    intro i n hn
    exact Nat.le_trans (requests_le f n (List.mem_of_getElem? hn)) (Nat.le_max_right 1 _)
  obtain ⟨m, w', e, hm, h'⟩ := (receive_reads hfd f _ rest 0 hahead).1 hg
  obtain ⟨hv, k, hr⟩ := receive_decodes hcuts hfd _ _ ⟨0, hahead⟩
  rw [e] at hv hr
  refine Prod.ext ?_ ?_
  · rw [← hv, Option.map_some, hm]
  · exact hr.input.symm.trans h'.input

end RabbitMQ.Core
