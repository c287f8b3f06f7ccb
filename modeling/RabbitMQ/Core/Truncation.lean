/-
  RabbitMQ.Core.Truncation — messages too large for a frame.

  `send_message_data` keeps each of its three lengths in a `uint32_t` and compares what
  `send` returns with the variable. A length from 2^32 on is cut to its low 32 bits, the
  buffer is sent up to there, and the comparison holds: the call returns 1 with part of the
  message on the stream (`an_empty_body_is_sent_for_4_gigabytes`). So a successful send
  carries the whole message exactly when the three lengths fit (`sent_whole_iff`).
-/

import RabbitMQ.Core.Relay

namespace RabbitMQ.Core

open Lib
open Lib.Bytes (leBytes)

/-- A length as it goes on the wire and the bytes sent with it. -/
def cut32 (bs : Bytes) : Bytes := u32 (UInt32.ofNat bs.length) ++ bs.take (bs.length % 2 ^ 32)

theorem cut32_length (bs : Bytes) : (cut32 bs).length = 4 + bs.length % 2 ^ 32 := by
  have hle : bs.length % 2 ^ 32 ≤ bs.length := Nat.mod_le _ _
  rw [cut32, List.length_append, u32_length, List.length_take_of_le hle]

theorem counted32_length (bs : Bytes) : (counted32 bs).length = 4 + bs.length := by
  rw [counted32, List.length_append, u32_length]

theorem cut32_fits {bs : Bytes} (h : bs.length < 2 ^ 32) : cut32 bs = counted32 bs := by
  rw [cut32, counted32, Nat.mod_eq_of_lt h, List.take_length]

/-! ## The frame and what is sent of it -/

def exchangeBytes (m : Fields) : Bytes := (m.exchange.map (·.bytes)).getD []

def routingKeyBytes (m : Fields) : Bytes := (m.routingKey.map (·.bytes)).getD []

def bodyBytes (m : Fields) : Bytes := m.body.getD []

def propertyBytes (m : Fields) : Bytes := u32 m.priority ++ (leBytes 8 m.expiration.toNat ++ [m.persistent])

/-- The lengths, cut to 32 bits, and all the bytes. -/
def wholeFrame (m : Fields) : Bytes :=
  u32 MESSAGE_MAGIC ++ (counted32 (exchangeBytes m) ++ (counted32 (routingKeyBytes m) ++ (counted32 (bodyBytes m) ++
    propertyBytes m)))

def cutFrame (m : Fields) : Bytes :=
  u32 MESSAGE_MAGIC ++ (cut32 (exchangeBytes m) ++ (cut32 (routingKeyBytes m) ++ (cut32 (bodyBytes m) ++ propertyBytes m)))

/-- The three lengths are below 2^32. -/
structure FrameFits (m : Fields) : Prop where
  exchange : (exchangeBytes m).length < 2 ^ 32
  routingKey : (routingKeyBytes m).length < 2 ^ 32
  body : (bodyBytes m).length < 2 ^ 32

theorem cutFrame_whole_iff (m : Fields) : cutFrame m = wholeFrame m ↔ FrameFits m := by
  constructor
  · intro h
    have hlen := congrArg List.length h
    simp only [cutFrame, wholeFrame, List.length_append, cut32_length, counted32_length] at hlen
    have hpos : 0 < 2 ^ 32 := by decide
    have he := Nat.mod_le (exchangeBytes m).length (2 ^ 32)
    have hk := Nat.mod_le (routingKeyBytes m).length (2 ^ 32)
    have hb := Nat.mod_le (bodyBytes m).length (2 ^ 32)
    refine ⟨?_, ?_, ?_⟩
    · rw [← Nat.mod_eq_iff_lt (by decide)]
      omega
    · rw [← Nat.mod_eq_iff_lt (by decide)]
      omega
    · rw [← Nat.mod_eq_iff_lt (by decide)]
      omega
  · intro h
    rw [cutFrame, wholeFrame, cut32_fits h.exchange, cut32_fits h.routingKey, cut32_fits h.body]

theorem sends_cut {m : Fields} (hs : Sized m) (hn : Named m) : ∃ bufs, sends m = some bufs ∧ bufs.flatten = cutFrame m := by
  obtain ⟨exchange, he⟩ := Option.ne_none_iff_exists'.mp hn.1
  obtain ⟨routingKey, hk⟩ := Option.ne_none_iff_exists'.mp hn.2
  have hsize : (bodyBytes m).length = m.bodySize.toNat := by
    rcases hs with ⟨hzero, hbody⟩ | ⟨-, b, hbody, hlen⟩
    · rw [bodyBytes, hbody, hzero]
      rfl
    · rw [bodyBytes, hbody, Option.getD_some, hlen]
  have hnarrow : m.bodySize.toUInt32 = UInt32.ofNat (bodyBytes m).length := by
    apply UInt32.toNat_inj.mp
    rw [hsize, UInt64.toNat_toUInt32, UInt32.toNat_ofNat']
  have hbytes : ((if 0 < m.bodySize.toUInt32 then [(m.body.getD []).take m.bodySize.toUInt32.toNat] else []) : List Bytes).flatten =
      (bodyBytes m).take ((bodyBytes m).length % 2 ^ 32) := by
    rw [hnarrow, UInt32.toNat_ofNat']
    split
    · exact List.append_nil _
    · rename_i hzero
      have hzero : (bodyBytes m).length % 2 ^ 32 = 0 := by
        rw [UInt32.lt_iff_toNat_lt, UInt32.toNat_ofNat'] at hzero
        have : (0 : UInt32).toNat = 0 := rfl
        omega
      rw [hzero]
      rfl
  have hsends : ∃ bufs, sends m = some bufs := by
    rw [sends, he, hk]
    exact ⟨_, rfl⟩
  obtain ⟨bufs, e⟩ := hsends
  refine ⟨bufs, e, ?_⟩
  rw [sends, he, hk] at e
  simp only [Option.some.injEq] at e
  rw [← e, List.flatten_append, List.flatten_append, hbytes, hnarrow]
  simp only [cutFrame, cut32, exchangeBytes, routingKeyBytes, propertyBytes, he, hk, Option.map_some, Option.getD_some,
    CString.strlen, UInt32.toNat_ofNat', List.flatten_cons, List.flatten_nil, List.append_assoc, List.append_nil]

/-! ## What a successful send has written -/

/-- Every send that returns 1 has written the whole frame. -/
def SentWhole (m : Fields) : Prop :=
  ∀ (fd : Int) (o o' : Outlet), sendMessageData fd m o = some (1, o') → o'.stream = o.stream ++ wholeFrame m

theorem sent_cut {m : Fields} (hs : Sized m) {fd : Int} {o o' : Outlet} (h : sendMessageData fd m o = some (1, o')) :
    Named m ∧ o'.stream = o.stream ++ cutFrame m := by
  unfold sendMessageData at h
  split at h
  · cases h
  · obtain ⟨bufs, hbufs, hsent⟩ := Option.map_eq_some_iff.mp h
    have hn : Named m := by
      unfold sends at hbufs
      split at hbufs
      · rename_i he hk
        exact ⟨by rw [he]; exact Option.some_ne_none _, by rw [hk]; exact Option.some_ne_none _⟩
      · cases hbufs
    obtain ⟨bufs', e, hflat⟩ := sends_cut hs hn
    obtain rfl := Option.some.inj (hbufs.symm.trans e)
    refine ⟨hn, ?_⟩
    rw [← hflat]
    exact sendEach_written hsent

/-- A peer that takes everything is sent any message. -/
theorem sent_to_a_complete_outlet {m : Fields} (hs : Sized m) (hn : Named m) :
    ∃ o', sendMessageData 3 m ⟨[], fun _ => .all, 0⟩ = some (1, o') := by
  obtain ⟨bufs, e, -⟩ := sends_cut hs hn
  have hall : Complete ⟨[], fun _ => .all, 0⟩ := fun _ => rfl
  obtain ⟨o', hsent, -⟩ := sendEach_complete bufs hall
  exact ⟨o', by rw [sendMessageData, if_neg (by decide), e, Option.map_some, hsent]⟩

theorem sentWhole_iff {m : Fields} (hs : Sized m) : SentWhole m ↔ (Named m → FrameFits m) := by
  constructor
  · intro h hn
    obtain ⟨o', hsent⟩ := sent_to_a_complete_outlet hs hn
    have hcut := (sent_cut hs hsent).2
    rw [h _ _ _ hsent] at hcut
    exact (cutFrame_whole_iff m).mp (List.append_cancel_left hcut).symm
  · intro h fd o o' hsent
    obtain ⟨hn, hcut⟩ := sent_cut hs hsent
    rw [hcut, (cutFrame_whole_iff m).mpr (h hn)]

/-- A message made of a body that is as long as it is said to be. -/
theorem created_sized {exchange routingKey : CString} {body : Option Bytes} {bodySize : UInt64} {h h' : Heap} {m : Message}
    (hm : messageCreate (some exchange) (some routingKey) body bodySize h = (some m, h'))
    (hbody : ∀ b, body = some b → bodySize.toNat ≤ b.length) :
    Sized m.toFields ∧ (bodyBytes m.toFields).length = bodySize.toNat := by
  have hcopy := create_copies hm
  have hsize : m.bodySize = bodySize := hcopy.bodySize
  have hcopied : m.body = if 0 < bodySize then body.map (·.take bodySize.toNat) else none := hcopy.body
  by_cases hpos : 0 < bodySize
  · cases body with
    | none =>
      rw [messageCreate, if_pos ⟨rfl, hpos⟩] at hm
      cases hm
    | some b =>
      rw [if_pos hpos, Option.map_some] at hcopied
      have hlen := List.length_take_of_le (hbody b rfl)
      refine ⟨Or.inr ⟨by rw [hsize]; exact hpos, _, hcopied, by rw [hsize]; exact hlen⟩, ?_⟩
      rw [bodyBytes, hcopied, Option.getD_some, hlen]
  · have hzero : bodySize = 0 := by simpa using hpos
    rw [if_neg hpos] at hcopied
    refine ⟨Or.inl ⟨by rw [hsize, hzero], hcopied⟩, ?_⟩
    rw [bodyBytes, hcopied, hzero]
    rfl

theorem created_fits {exchange routingKey : CString} {body : Option Bytes} {bodySize : UInt64} {h h' : Heap} {m : Message}
    (hm : messageCreate (some exchange) (some routingKey) body bodySize h = (some m, h'))
    (hbody : ∀ b, body = some b → bodySize.toNat ≤ b.length) (hn : Named m.toFields) :
    FrameFits m.toFields ↔ exchange.strlen < 2 ^ 32 ∧ routingKey.strlen < 2 ^ 32 ∧ bodySize.toNat < 2 ^ 32 := by
  have hcopy := create_copies hm
  have he : exchangeBytes m.toFields = exchange.bytes := by rw [exchangeBytes, hcopy.exchange.resolve_left hn.1]; rfl
  have hk : routingKeyBytes m.toFields = routingKey.bytes := by rw [routingKeyBytes, hcopy.routingKey.resolve_left hn.2]; rfl
  have hb := (created_sized hm hbody).2
  constructor
  · intro hf
    refine ⟨?_, ?_, ?_⟩
    · rw [CString.strlen, ← he]
      exact hf.exchange
    · rw [CString.strlen, ← hk]
      exact hf.routingKey
    · rw [← hb]
      exact hf.body
  · rintro ⟨hfe, hfk, hfb⟩
    exact ⟨by rw [he]; exact hfe, by rw [hk]; exact hfk, by rw [hb]; exact hfb⟩

/-- Any strings, any body, any outcome of the sends. -/
theorem sent_whole_iff {exchange routingKey : CString} {body : Option Bytes} {bodySize : UInt64} {h h' : Heap} {m : Message}
    (hm : messageCreate (some exchange) (some routingKey) body bodySize h = (some m, h'))
    (hbody : ∀ b, body = some b → bodySize.toNat ≤ b.length) :
    (bodyBytes m.toFields).length = m.bodySize.toNat ∧
      (SentWhole m.toFields ↔
        (Named m.toFields → exchange.strlen < 2 ^ 32 ∧ routingKey.strlen < 2 ^ 32 ∧ bodySize.toNat < 2 ^ 32)) ∧
      (∀ (fd : Int) (o o' : Outlet), sendMessageData fd m.toFields o = some (1, o') →
        (o'.stream = o.stream ++ wholeFrame m.toFields ↔
          exchange.strlen < 2 ^ 32 ∧ routingKey.strlen < 2 ^ 32 ∧ bodySize.toNat < 2 ^ 32)) := by
  obtain ⟨hs, hlen⟩ := created_sized hm hbody
  have hsize : m.bodySize = bodySize := (create_copies hm).bodySize
  refine ⟨by rw [hlen, hsize], ?_, fun fd o o' hsent => ?_⟩
  · rw [sentWhole_iff hs]
    exact ⟨fun hf hn => (created_fits hm hbody hn).mp (hf hn), fun hf hn => (created_fits hm hbody hn).mpr (hf hn)⟩
  · obtain ⟨hn, hcut⟩ := sent_cut hs hsent
    rw [← created_fits hm hbody hn, hcut, List.append_cancel_left_eq]
    exact cutFrame_whole_iff m.toFields

/-- A body of 2^32 bytes: its length is cut to 0, nothing of it is sent, the send returns 1. -/
theorem an_empty_body_is_sent_for_4_gigabytes : ∃ m h',
    messageCreate (some ⟨[97], by decide⟩) (some ⟨[98], by decide⟩) (some (List.replicate (2 ^ 32) 0)) 4294967296
        ⟨0, fun _ => false, [], []⟩ = (some m, h') ∧
      (∃ o', sendMessageData 3 m.toFields ⟨[], fun _ => .all, 0⟩ = some (1, o')) ∧ ¬ SentWhole m.toFields := by
  have hsize : (4294967296 : UInt64).toNat = 2 ^ 32 := by decide
  have hnull : ¬ (some (List.replicate (2 ^ 32) (0 : UInt8)) = none ∧ 0 < (4294967296 : UInt64)) := fun h => by cases h.1
  have hgranted : (⟨0, fun _ => false, [], []⟩ : Heap).AllGranted := fun _ => rfl
  obtain ⟨m, h', e, -, hfields⟩ := create_fields hgranted ⟨[97], by decide⟩ ⟨[98], by decide⟩ hnull
  have hbody : ∀ b, some (List.replicate (2 ^ 32) (0 : UInt8)) = some b → (4294967296 : UInt64).toNat ≤ b.length := by
    intro b hb
    rw [← Option.some.inj hb, hsize, List.length_replicate]
  obtain ⟨hs, hlen⟩ := created_sized e hbody
  have hn : Named m.toFields := by
    rw [hfields]
    exact ⟨Option.some_ne_none _, Option.some_ne_none _⟩
  refine ⟨m, h', e, sent_to_a_complete_outlet hs hn, fun hw => ?_⟩
  have hfits := ((sentWhole_iff hs).mp hw hn).body
  rw [hlen, hsize] at hfits
  exact absurd hfits (Nat.lt_irrefl _)

theorem sent_whole_iff_of_two_bytes : ∃ m h',
    messageCreate (some ⟨[97], by decide⟩) (some ⟨[98], by decide⟩) (some [1, 2]) 2 ⟨0, fun _ => false, [], []⟩ = (some m, h') ∧
      (bodyBytes m.toFields).length = m.bodySize.toNat ∧
      (SentWhole m.toFields ↔ (Named m.toFields → CString.strlen ⟨[97], by decide⟩ < 2 ^ 32 ∧
        CString.strlen ⟨[98], by decide⟩ < 2 ^ 32 ∧ (2 : UInt64).toNat < 2 ^ 32)) ∧
      (∀ (fd : Int) (o o' : Outlet), sendMessageData fd m.toFields o = some (1, o') →
        (o'.stream = o.stream ++ wholeFrame m.toFields ↔ CString.strlen ⟨[97], by decide⟩ < 2 ^ 32 ∧
          CString.strlen ⟨[98], by decide⟩ < 2 ^ 32 ∧ (2 : UInt64).toNat < 2 ^ 32)) := by
  have hgranted : (⟨0, fun _ => false, [], []⟩ : Heap).AllGranted := fun _ => rfl
  have hnull : ¬ (some ([1, 2] : Bytes) = none ∧ 0 < (2 : UInt64)) := fun h => by cases h.1
  obtain ⟨m, h', e, -, -⟩ := create_fields hgranted ⟨[97], by decide⟩ ⟨[98], by decide⟩ hnull
  exact ⟨m, h', e, sent_whole_iff e fun b hb => by cases hb; decide⟩

end RabbitMQ.Core
