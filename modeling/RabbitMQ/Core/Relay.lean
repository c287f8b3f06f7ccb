/-
  RabbitMQ.Core.Relay — a frame through the broker: received, cloned for routing, cloned for
  a queue, sent on.

  A frame gives the length of its names; a `Message` has them as C strings. So a name with a
  NUL in it ends there, and the frame sent on is the one received with its names cut at
  their first NUL: the same frame exactly when they have none (`relayed_iff`,
  `a_name_with_a_nul_is_cut`).
-/

import RabbitMQ.Core.Decoding

namespace RabbitMQ.Core

open Lib
open Lib.Bytes (leBytes ofLE)
open Lib.Reader (attempt exactly)

/-! ## What the reader accepts -/

/-- The parts of a frame, with the names as they are on the wire. -/
structure RawFrame where
  exchange : Bytes
  routingKey : Bytes
  body : Bytes
  priority : UInt32
  expiration : UInt64
  persistent : UInt8
  exchangeFits : exchange.length < 2 ^ 32
  routingKeyFits : routingKey.length < 2 ^ 32
  bodyFits : body.length < 2 ^ 32

/-- A length and as many bytes. -/
def counted32 (bs : Bytes) : Bytes := u32 (UInt32.ofNat bs.length) ++ bs

namespace RawFrame

def bytes (f : RawFrame) : Bytes :=
  u32 MESSAGE_MAGIC ++ (counted32 f.exchange ++ (counted32 f.routingKey ++ (counted32 f.body ++
    (u32 f.priority ++ (leBytes 8 f.expiration.toNat ++ [f.persistent])))))

def fields (f : RawFrame) : Fields where
  exchange := some (CString.ofBuffer f.exchange)
  routingKey := some (CString.ofBuffer f.routingKey)
  body := if f.body = [] then none else some f.body
  bodySize := UInt64.ofNat f.body.length
  priority := f.priority
  expiration := f.expiration
  persistent := f.persistent

/-- The names up to their first NUL. -/
def cut (f : RawFrame) : RawFrame :=
  { f with
    exchange := (CString.ofBuffer f.exchange).bytes
    routingKey := (CString.ofBuffer f.routingKey).bytes
    exchangeFits := Nat.lt_of_le_of_lt (List.takeWhile_sublist _).length_le f.exchangeFits
    routingKeyFits := Nat.lt_of_le_of_lt (List.takeWhile_sublist _).length_le f.routingKeyFits }

end RawFrame

theorem exactly_taken {n : Nat} {bs v rest : Bytes} (h : exactly n bs = (some v, rest)) : bs = v ++ rest ∧ v.length = n := by
  obtain ⟨hle, rfl, rfl⟩ := Reader.exactly_some h
  exact ⟨(List.take_append_drop n bs).symm, List.length_take_of_le hle⟩

theorem u32_ofLE {bs : Bytes} (h : bs.length = 4) : u32 (UInt32.ofNat (ofLE bs)) = bs := Bytes.leBytes_uint32 h

theorem exactly_counted {bs len v rest : Bytes} {mid : Bytes} (hlen : exactly 4 bs = (some len, mid))
    (hv : exactly (UInt32.ofNat (ofLE len)).toNat mid = (some v, rest)) : bs = counted32 v ++ rest ∧ v.length < 2 ^ 32 := by
  obtain ⟨rfl, h4⟩ := exactly_taken hlen
  obtain ⟨rfl, hcount⟩ := exactly_taken hv
  have hsize := (UInt32.ofNat (ofLE len)).toNat_lt
  refine ⟨?_, by omega⟩
  rw [counted32, hcount, UInt32.ofNat_toNat, u32_ofLE h4, List.append_assoc]

theorem decodeString_raw {bs rest : Bytes} {s : CString} (h : decodeString bs = (some s, rest)) :
    ∃ raw, bs = counted32 raw ++ rest ∧ raw.length < 2 ^ 32 ∧ s = CString.ofBuffer raw := by
  obtain ⟨len, mid, hlen, h⟩ := Reader.attempt_some h
  obtain ⟨raw, rest', hraw, h⟩ := Reader.attempt_some h
  cases h
  obtain ⟨hbs, hlt⟩ := exactly_counted hlen hraw
  exact ⟨raw, hbs, hlt, rfl⟩

theorem decodeBody_raw {bs rest : Bytes} {body : UInt32 × Option Bytes} (h : decodeBody bs = (some body, rest)) :
    ∃ raw, bs = counted32 raw ++ rest ∧ raw.length < 2 ^ 32 ∧
      body = (UInt32.ofNat raw.length, if raw = [] then none else some raw) := by
  obtain ⟨size, mid, hsize, h⟩ := Reader.attempt_some h
  by_cases hpos : 0 < UInt32.ofNat (ofLE size)
  · simp only [if_pos hpos] at h
    obtain ⟨raw, rest', hraw, h⟩ := Reader.attempt_some h
    cases h
    obtain ⟨hbs, hlt⟩ := exactly_counted hsize hraw
    have hlen : raw.length = (UInt32.ofNat (ofLE size)).toNat := (exactly_taken hraw).2
    have hne : raw ≠ [] := by
      rw [← List.length_pos_iff, hlen]
      exact UInt32.lt_iff_toNat_lt.mp hpos
    exact ⟨raw, hbs, hlt, by rw [hlen, UInt32.ofNat_toNat, if_neg hne]⟩
  · simp only [if_neg hpos] at h
    cases h
    have hzero : UInt32.ofNat (ofLE size) = 0 := by simpa using hpos
    have hnone : exactly (UInt32.ofNat (ofLE size)).toNat rest = (some [], rest) := by
      rw [hzero]
      exact Reader.exactly_nil rest
    obtain ⟨hbs, hlt⟩ := exactly_counted hsize hnone
    exact ⟨[], hbs, hlt, by rw [hzero]; rfl⟩

/-- A message decoded was a frame, with nothing lost of it but what follows a NUL. -/
theorem decode_raw {bs rest : Bytes} {v : Fields} (h : decode bs = (some v, rest)) :
    ∃ p : RawFrame, bs = p.bytes ++ rest ∧ v = p.fields := by
  obtain ⟨magic, bs1, h1, h⟩ := Reader.attempt_some h
  split at h
  · cases h
  rename_i hmagic
  obtain ⟨exchange, bs2, h2, h⟩ := Reader.attempt_some h
  obtain ⟨routingKey, bs3, h3, h⟩ := Reader.attempt_some h
  obtain ⟨body, bs4, h4, h⟩ := Reader.attempt_some h
  obtain ⟨priority, bs5, h5, h⟩ := Reader.attempt_some h
  obtain ⟨expiration, bs6, h6, h⟩ := Reader.attempt_some h
  obtain ⟨persistent, bs7, h7, h⟩ := Reader.attempt_some h
  cases h
  obtain ⟨e, rfl, he, rfl⟩ := decodeString_raw h2
  obtain ⟨k, rfl, hk, rfl⟩ := decodeString_raw h3
  obtain ⟨b, rfl, hb, rfl⟩ := decodeBody_raw h4
  obtain ⟨rfl, l1⟩ := exactly_taken h1
  obtain ⟨rfl, l5⟩ := exactly_taken h5
  obtain ⟨rfl, l6⟩ := exactly_taken h6
  obtain ⟨rfl, l7⟩ := exactly_taken h7
  have hmagic : u32 MESSAGE_MAGIC = magic := by
    rw [← not_ne_iff.mp hmagic]
    exact u32_ofLE l1
  have hlast : [UInt8.ofNat (ofLE persistent)] = persistent := Bytes.leBytes_uint8 l7
  refine ⟨⟨e, k, b, UInt32.ofNat (ofLE priority), UInt64.ofNat (ofLE expiration), UInt8.ofNat (ofLE persistent),
    he, hk, hb⟩, ?_, ?_⟩
  · simp only [RawFrame.bytes, hmagic, u32_ofLE l5, Bytes.leBytes_uint64 l6, hlast, List.append_assoc]
  · have hsize : (UInt32.ofNat b.length).toUInt64 = UInt64.ofNat b.length := by
      apply UInt64.toNat_inj.mp
      rw [UInt32.toNat_toUInt64, UInt32.toNat_ofNat_of_lt' hb, UInt64.toNat_ofNat_of_lt' (Nat.lt_trans hb (by decide))]
    rw [RawFrame.fields, ← hsize]

/-! ## What the writer makes of it -/

theorem takeWhile_cut {b : Bytes} (h : b.length < 2 ^ 32) :
    (CString.ofBuffer b).bytes.take (UInt32.ofNat (CString.ofBuffer b).strlen).toNat = (CString.ofBuffer b).bytes := by
  have hlt : (CString.ofBuffer b).strlen < UInt32.size :=
    Nat.lt_of_le_of_lt (List.takeWhile_sublist _).length_le h
  rw [UInt32.toNat_ofNat_of_lt' hlt]
  exact List.take_length

theorem encoded_raw (p : RawFrame) : ((sends p.fields).getD []).flatten = p.cut.bytes := by
  have hsize : (UInt64.ofNat p.body.length).toUInt32 = UInt32.ofNat p.body.length := by
    apply UInt32.toNat_inj.mp
    simp
  have hlen : (UInt32.ofNat p.body.length).toNat = p.body.length := UInt32.toNat_ofNat_of_lt' p.bodyFits
  have hpos : 0 < UInt32.ofNat p.body.length ↔ p.body ≠ [] := by
    rw [UInt32.lt_iff_toNat_lt, hlen]
    exact List.length_pos_iff
  simp only [sends, RawFrame.fields, takeWhile_cut p.exchangeFits, takeWhile_cut p.routingKeyFits, hsize, hlen,
    Option.getD_some]
  by_cases hb : p.body = []
  · rw [if_neg (by rw [hpos]; simpa using hb)]
    simp [RawFrame.bytes, RawFrame.cut, counted32, CString.strlen, hb]
  · rw [if_pos (hpos.mpr hb)]
    simp [RawFrame.bytes, RawFrame.cut, counted32, CString.strlen, hb]

theorem sends_raw (p : RawFrame) : ∃ bufs, sends p.fields = some bufs ∧ bufs.flatten = p.cut.bytes := by
  have h : ∃ bufs, sends p.fields = some bufs := ⟨_, rfl⟩
  obtain ⟨bufs, e⟩ := h
  exact ⟨bufs, e, by rw [← encoded_raw, e, Option.getD_some]⟩

theorem cut_length {b : Bytes} (h : 0 ∈ b) : (CString.ofBuffer b).bytes.length < b.length := by
  have hne : b.takeWhile (· != 0) ≠ b := by
    intro he
    have := List.takeWhile_eq_self_iff.mp he 0 h
    simp at this
  exact Nat.lt_of_le_of_ne (List.takeWhile_sublist _).length_le fun hlen =>
    hne ((List.takeWhile_sublist _).eq_of_length hlen)

theorem bytes_length (p : RawFrame) : p.bytes.length = 29 + p.exchange.length + p.routingKey.length + p.body.length := by
  simp only [RawFrame.bytes, counted32, List.length_append, u32_length, Bytes.leBytes_length, List.length_cons, List.length_nil]
  omega

/-- The frame written is the frame read exactly when there is no NUL in its names. -/
theorem cut_bytes (p : RawFrame) : p.cut.bytes = p.bytes ↔ 0 ∉ p.exchange ∧ 0 ∉ p.routingKey := by
  constructor
  · intro h
    have hlen := congrArg List.length h
    rw [bytes_length, bytes_length] at hlen
    have he : (CString.ofBuffer p.exchange).bytes.length ≤ p.exchange.length := (List.takeWhile_sublist _).length_le
    have hk : (CString.ofBuffer p.routingKey).bytes.length ≤ p.routingKey.length := (List.takeWhile_sublist _).length_le
    have hlen : 29 + (CString.ofBuffer p.exchange).bytes.length + (CString.ofBuffer p.routingKey).bytes.length +
        p.body.length = 29 + p.exchange.length + p.routingKey.length + p.body.length := hlen
    refine ⟨?_, ?_⟩
    · intro h0
      have := cut_length h0
      omega
    · intro h0
      have := cut_length h0
      omega
  · intro h
    have he : (CString.ofBuffer p.exchange).bytes = p.exchange := congrArg CString.bytes (CString.ofBuffer_bytes ⟨p.exchange, h.1⟩)
    have hk : (CString.ofBuffer p.routingKey).bytes = p.routingKey :=
      congrArg CString.bytes (CString.ofBuffer_bytes ⟨p.routingKey, h.2⟩)
    simp only [RawFrame.bytes, RawFrame.cut, he, hk]

theorem raw_sized (p : RawFrame) : Sized p.fields := by
  have hlen : (UInt64.ofNat p.body.length).toNat = p.body.length :=
    UInt64.toNat_ofNat_of_lt' (Nat.lt_trans p.bodyFits (by decide))
  by_cases hb : p.body = []
  · refine Or.inl ⟨?_, if_pos hb⟩
    show UInt64.ofNat p.body.length = 0
    rw [hb]
    rfl
  · refine Or.inr ⟨?_, p.body, if_neg hb, hlen.symm⟩
    rw [UInt64.lt_iff_toNat_lt]
    show 0 < (UInt64.ofNat p.body.length).toNat
    rw [hlen]
    exact List.length_pos_iff.mpr hb

/-- `send_message_data` returns 1 only with every buffer on the stream. -/
theorem sendEach_written {bufs : List Bytes} {o o' : Outlet} (h : sendEach bufs o = (1, o')) :
    o'.stream = o.stream ++ bufs.flatten := by
  induction bufs generalizing o with
  | nil =>
    cases h
    exact (List.append_nil _).symm
  | cons buf bufs ih =>
    rw [sendEach] at h
    split at h
    · rename_i hall
      rw [ih h, List.flatten_cons, ← List.append_assoc]
      congr 1
      unfold send at hall ⊢
      cases hout : o.outcome o.calls with
      | all => rfl
      | short n =>
        simp only [hout, Option.some.injEq] at hall
        show o.stream ++ buf.take n = o.stream ++ buf
        rw [(List.take_sublist n buf).eq_of_length hall]
      | error =>
        simp only [hout] at hall
        cases hall
    · cases h

/-! ## Through the broker -/

/-- What `broker_publish` and `broker_route_message` do with a message, each clone made on
    the heap as it then is, and the send of the last clone. -/
def relay (fd : Int) (m : Message) (h₁ h₂ : Heap) (o : Outlet) : Option (Nat × Outlet) :=
  (messageClone m h₁).1.bind fun clone => (messageClone clone h₂).1.bind fun routed => sendMessageData fd routed.toFields o

theorem clone_whole {m : Message} (hs : Sized m.toFields) (hn : Named m.toFields) {h : Heap} (hg : h.AllGranted) :
    ∃ c, (messageClone m h).1 = some c ∧ c.toFields = m.toFields := by
  obtain ⟨exchange, hx⟩ := Option.ne_none_iff_exists'.mp hn.1
  obtain ⟨routingKey, hk⟩ := Option.ne_none_iff_exists'.mp hn.2
  have hnull : ¬ (m.body = none ∧ 0 < m.bodySize) := by
    rintro ⟨hnone, hpos⟩
    rcases hs with ⟨h0, -⟩ | ⟨-, b, hb, -⟩
    · rw [show m.bodySize = 0 from h0] at hpos
      exact absurd hpos (by decide)
    · rw [show m.body = some b from hb] at hnone
      cases hnone
  obtain ⟨c, h', e, -, hc⟩ := create_fields hg exchange routingKey hnull
  have hclone : messageClone m h =
      (some { c with priority := m.priority, expiration := m.expiration, persistent := m.persistent }, h') := by
    rw [messageClone, hx, hk, e]
  have hcopy := (clone_copies hs hclone).2
  refine ⟨_, congrArg Prod.fst hclone, hcopy.eq ⟨?_, ?_⟩⟩
  · rw [show c.exchange = some exchange from congrArg Fields.exchange hc]
    exact Option.some_ne_none _
  · rw [show c.routingKey = some routingKey from congrArg Fields.routingKey hc]
    exact Option.some_ne_none _

/-- What is sent has the fields received. -/
theorem relay_sends {fd : Int} {m : Message} (hs : Sized m.toFields) {h₁ h₂ : Heap} {o o' : Outlet}
    (h : relay fd m h₁ h₂ o = some (1, o')) : Named m.toFields ∧ sendMessageData fd m.toFields o = some (1, o') := by
  obtain ⟨clone, e1, h⟩ := Option.bind_eq_some_iff.mp h
  obtain ⟨routed, e2, h⟩ := Option.bind_eq_some_iff.mp h
  obtain ⟨hm, hcopy⟩ := clone_copies hs (Prod.ext e1 rfl)
  obtain ⟨hclone, hcopy'⟩ := clone_copies (hcopy.sized hs) (Prod.ext e2 rfl)
  have hfields := hcopy.eq hclone
  have hrouted : Named routed.toFields := by
    unfold sendMessageData at h
    split at h
    · cases h
    · obtain ⟨bufs, hb, -⟩ := Option.map_eq_some_iff.mp h
      unfold sends at hb
      split at hb
      · rename_i he hk
        exact ⟨by rw [he]; exact Option.some_ne_none _, by rw [hk]; exact Option.some_ne_none _⟩
      · cases hb
  rw [hcopy'.eq hrouted, hfields] at h
  exact ⟨hm, h⟩

theorem sent_raw {p : RawFrame} {fd : Int} {o o' : Outlet} (h : sendMessageData fd p.fields o = some (1, o')) :
    o'.stream = o.stream ++ p.cut.bytes := by
  obtain ⟨bufs, e, hb⟩ := sends_raw p
  unfold sendMessageData at h
  split at h
  · cases h
  · rw [e, Option.map_some, Option.some.injEq] at h
    rw [← hb]
    exact sendEach_written h

/-- With nothing refused and every send whole, the message arrives. -/
theorem relay_done {p : RawFrame} {m : Message} (hm : m.toFields = p.fields) {fd : Int} (hfd : 0 ≤ fd) {h₁ h₂ : Heap}
    (hg₁ : h₁.AllGranted) (hg₂ : h₂.AllGranted) {o : Outlet} (ho : Complete o) :
    ∃ o', relay fd m h₁ h₂ o = some (1, o') := by
  have hsized : ∀ {c : Message}, c.toFields = p.fields → Sized c.toFields := fun hc => by rw [hc]; exact raw_sized p
  have hnamed : ∀ {c : Message}, c.toFields = p.fields → Named c.toFields := by
    intro c hc
    rw [hc]
    exact ⟨Option.some_ne_none _, Option.some_ne_none _⟩
  obtain ⟨clone, e1, h1⟩ := clone_whole (hsized hm) (hnamed hm) hg₁
  rw [hm] at h1
  obtain ⟨routed, e2, h2⟩ := clone_whole (hsized h1) (hnamed h1) hg₂
  obtain ⟨bufs, e3, -⟩ := sends_raw p
  obtain ⟨o', e4, -⟩ := sendEach_complete bufs ho
  refine ⟨o', ?_⟩
  rw [relay, e1, Option.bind_some, e2, Option.bind_some, sendMessageData, if_neg (by omega), h2, h1, e3, Option.map_some, e4]

/-- A frame accepted is relayed with its names up to their first NUL: the same bytes
    exactly when they have none. -/
theorem relayed_iff {fd : Int} {w w' : World} {m : Message} (h : receiveMessageData fd w = (some m, w')) :
    ∃ p : RawFrame, w.inlet.input = p.bytes ++ w'.inlet.input ∧
      (∀ (fd : Int) (h₁ h₂ : Heap) (o o' : Outlet), relay fd m h₁ h₂ o = some (1, o') → o'.stream = o.stream ++ p.cut.bytes) ∧
      (Named m.toFields → ∀ (fd : Int) (h₁ h₂ : Heap) (o : Outlet), 0 ≤ fd → h₁.AllGranted → h₂.AllGranted → Complete o →
        ∃ o', relay fd m h₁ h₂ o = some (1, o')) ∧
      (p.cut.bytes = p.bytes ↔ 0 ∉ p.exchange ∧ 0 ∉ p.routingKey) := by
  obtain ⟨v, hdecode, hcopy⟩ := received h
  obtain ⟨p, hp, rfl⟩ := decode_raw hdecode
  refine ⟨p, hp, ?_, ?_, cut_bytes p⟩
  · intro fd h₁ h₂ o o' hr
    obtain ⟨hnamed, hsent⟩ := relay_sends (hcopy.sized (raw_sized p)) hr
    rw [hcopy.eq hnamed] at hsent
    exact sent_raw hsent
  · intro hnamed fd h₁ h₂ o hfd hg₁ hg₂ ho
    exact relay_done (hcopy.eq hnamed) hfd hg₁ hg₂ ho

/-- The exchange is "a", a NUL and "b". -/
def nulName : RawFrame where
  exchange := [97, 0, 98]
  routingKey := [107]
  body := [1, 2]
  priority := 0
  expiration := 0
  persistent := 0
  exchangeFits := Nat.le_of_ble_eq_true rfl
  routingKeyFits := Nat.le_of_ble_eq_true rfl
  bodyFits := Nat.le_of_ble_eq_true rfl

/-- The frame through the broker: what `send_message_data` returns, and the bytes sent. -/
def relayedThrough (p : RawFrame) : Option (Nat × Bytes) :=
  let r := receiveMessageData 3 (inletOf p.bytes fun _ => 64)
  r.1.bind fun m => (relay 4 m r.2.heap r.2.heap ⟨[], fun _ => .all, 0⟩).map fun s => (s.1, s.2.stream)

/-- Accepted, with nothing refused and every send whole, and not the frame sent on. -/
theorem a_name_with_a_nul_is_cut : ¬ relayedThrough nulName = some (1, nulName.bytes) ∧
    relayedThrough nulName = some (1, nulName.cut.bytes) := by
  decide +kernel

theorem relayed_iff_of_two_bytes : ∃ m w', receiveMessageData 3 (inletOf twoBytes.encode fun _ => 64) = (some m, w') ∧
    ∃ p : RawFrame, twoBytes.encode = p.bytes ++ w'.inlet.input ∧
      (∀ (fd : Int) (h₁ h₂ : Heap) (o o' : Outlet), relay fd m h₁ h₂ o = some (1, o') → o'.stream = o.stream ++ p.cut.bytes) ∧
      (Named m.toFields → ∀ (fd : Int) (h₁ h₂ : Heap) (o : Outlet), 0 ≤ fd → h₁.AllGranted → h₂.AllGranted → Complete o →
        ∃ o', relay fd m h₁ h₂ o = some (1, o')) ∧
      (p.cut.bytes = p.bytes ↔ 0 ∉ p.exchange ∧ 0 ∉ p.routingKey) := by
  have hm : (receiveMessageData 3 (inletOf twoBytes.encode fun _ => 64)).1.isSome = true := by decide +kernel
  have e : receiveMessageData 3 (inletOf twoBytes.encode fun _ => 64) = (some (Option.get _ hm), _) :=
    Prod.ext (Option.some_get hm).symm rfl
  exact ⟨_, _, e, relayed_iff e⟩

end RabbitMQ.Core
