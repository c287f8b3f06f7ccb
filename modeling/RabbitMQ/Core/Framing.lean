/-
  RabbitMQ.Core.Framing — what the reader makes of a frame.

  Every `recv` of `receive_message_data` asks for a fixed piece of the frame, so a frame is
  a list of requests (`Frame.requests`). A schedule `cuts` says how many bytes each call may
  return at most; a request is granted when that covers it. `receive_reads`: with nothing
  else failing, the reader given a frame returns the frame's message and takes exactly its
  bytes when every request is granted, and returns NULL when one is not.

  (1) The source takes a short read for a failure, so a frame cut anywhere inside a request
      is lost (`decoded_iff_no_read_is_short`, `a_body_in_two_segments_is_lost`).
  (2) With full reads a stream of frames is read back message by message, to its last byte
      (`frames_read_back`).
-/

import RabbitMQ.Core.Wire

namespace RabbitMQ.Core

open Lib
open Lib.Bytes (leBytes ofLE)
open Lib.Reader (attempt Reads Granted)

/-! ## The state of the reader -/

/-- Reads are cut as `cuts` says, no request for memory is refused, and `errno` is still
    `errno`. -/
structure Cutting (cuts : Nat → Nat) (errno : Nat) (w : World) : Prop where
  reads : ∀ j, w.inlet.outcome j = .upTo (cuts j)
  memory : w.heap.AllGranted
  errno : w.errno = errno

/-- About to make call `k`, with `bs` ahead. -/
structure Ahead (cuts : Nat → Nat) (errno : Nat) (w : World) (bs : Bytes) (k : Nat) : Prop where
  cutting : Cutting cuts errno w
  input : w.inlet.input = bs
  calls : w.inlet.calls = k

/-- Call `k` returns all of `n` bytes. -/
def Full (cuts : Nat → Nat) (k n : Nat) : Prop := n ≤ max 1 (cuts k)

instance (cuts : Nat → Nat) (k n : Nat) : Decidable (Full cuts k n) := inferInstanceAs (Decidable (n ≤ max 1 (cuts k)))

@[simp] theorem u32_length (n : UInt32) : (u32 n).length = 4 := Bytes.leBytes_length 4 _

@[simp] theorem ofLE_u32 (n : UInt32) : UInt32.ofNat (ofLE (u32 n)) = n := Bytes.ofLE_uint32 n

section Stages

variable {cuts : Nat → Nat} {errno : Nat}

/-- A reader against the schedule. -/
abbrev Takes (cuts : Nat → Nat) (errno : Nat) {γ : Type} (f : World → Option γ × World) (ns : List Nat) (bs : Bytes)
    (P : γ → Prop) : Prop :=
  Reads (Ahead cuts errno) (Full cuts) (Cutting cuts errno) f ns bs P

theorem recv_upTo {w : World} {bs : Bytes} {k : Nat} (h : Ahead cuts errno w bs k) (n : Nat) :
    ∃ w', recv n w = (some (bs.take (min n (max 1 (cuts k)))), w') ∧
      Ahead cuts errno w' (bs.drop (min n (max 1 (cuts k)))) (k + 1) := by
  obtain ⟨hc, hi, hk⟩ := h
  have hout : w.inlet.outcome w.inlet.calls = .upTo (cuts k) := by rw [hk]; exact hc.reads k
  simp only [recv, hout, hi]
  exact ⟨_, rfl, ⟨hc.reads, hc.memory, hc.errno⟩, rfl, by simp only [hk]⟩

theorem takes_recv (bs : Bytes) : Takes cuts errno (recvFull bs.length) [bs.length] bs (· = bs) := by
  intro w rest k h
  obtain ⟨w', e, h'⟩ := recv_upTo h bs.length
  simp only [recvFull, e, Option.bind_some, List.length_take, List.length_append]
  by_cases hg : Full cuts k bs.length
  · have hmin : min bs.length (max 1 (cuts k)) = bs.length := Nat.min_eq_left hg
    rw [hmin, List.drop_left] at h'
    rw [hmin, if_pos (by omega), List.take_left]
    exact ⟨fun _ => ⟨bs, w', rfl, rfl, h'⟩, fun hn => absurd ⟨hg, trivial⟩ hn⟩
  · have hmin : min bs.length (max 1 (cuts k)) < bs.length := by
      unfold Full at hg
      omega
    rw [if_neg (by omega)]
    exact ⟨fun hn => absurd hn.1 hg, fun _ => ⟨w', rfl, h'.cutting⟩⟩

theorem takes_recv_n {bs : Bytes} {n : Nat} (hn : bs.length = n) : Takes cuts errno (recvFull n) [n] bs (· = bs) := by
  subst hn
  exact takes_recv bs

/-- Noting a store changes nothing a reader looks at. -/
theorem Ahead.wrote {w : World} {bs : Bytes} {k : Nat} (h : Ahead cuts errno w bs k) (writes : List (Ptr × Nat)) :
    Ahead cuts errno { w with writes } bs k :=
  ⟨⟨h.cutting.reads, h.cutting.memory, h.cutting.errno⟩, h.input, h.calls⟩

theorem takes_recvInto (buf : Ptr) {bs : Bytes} {n : Nat} (hn : bs.length = n) :
    Takes cuts errno (recvInto buf n) [n] bs (· = bs) := by
  intro w rest k h
  obtain ⟨h1, h2⟩ := takes_recv_n hn w rest k h
  refine ⟨?_, ?_⟩
  · intro hg
    obtain ⟨v, w', e, hv, h'⟩ := h1 hg
    simp only [recvInto, e]
    exact ⟨v, _, rfl, hv, h'.wrote _⟩
  · intro hg
    obtain ⟨w', e, hc⟩ := h2 hg
    simp only [recvInto, e]
    exact ⟨_, rfl, hc.reads, hc.memory, hc.errno⟩

theorem cutting_release (held : List Ptr) {w : World} (h : Cutting cuts errno w) : Cutting cuts errno (release held w) :=
  ⟨h.reads, h.memory, h.errno⟩

/-- A request for memory between two reads. -/
theorem takes_malloc {γ : Type} {n : Nat} {f : World → Option γ × World} {g : Ptr → World → Option γ × World}
    {ns : List Nat} {bs : Bytes} {P : γ → Prop}
    (hf : ∀ w buf heap, malloc w.heap n = (some buf, heap) → f w = g buf { w with heap })
    (hg : ∀ buf, Takes cuts errno (g buf) ns bs P) : Takes cuts errno f ns bs P := by
  intro w rest k h
  obtain ⟨buf, heap, e, hm⟩ := Alloc.request_granted h.cutting.memory .plain n
  rw [hf w buf heap e]
  exact hg buf _ rest k ⟨⟨h.cutting.reads, hm, h.cutting.errno⟩, h.input, h.calls⟩

theorem takes_string (held : List Ptr) {s : CString} (hs : s.strlen ≤ 2 ^ 32 - 2) :
    Takes cuts errno (recvString held) [4, s.strlen] (u32 (UInt32.ofNat s.strlen) ++ s.bytes) fun r => r.2 = s := by
  have hlt : s.strlen < UInt32.size := by
    have : UInt32.size = 2 ^ 32 := rfl
    omega
  refine Reader.reads_attempt (takes_recv_n (u32_length _)) (fun w => cutting_release held) fun len hlen => ?_
  subst hlen
  simp only [ofLE_u32, UInt32.toNat_ofNat_of_lt' hlt]
  refine takes_malloc (g := fun buf w => attempt (recvInto buf s.strlen w) (release (held ++ [buf])) fun bytes w =>
    (some (buf, CString.ofBuffer bytes), { w with writes := w.writes ++ [(buf, s.strlen + 1)] }))
    (fun w buf heap e => by rw [e]) fun buf => ?_
  refine Reader.reads_attempt_done (takes_recvInto buf rfl) (fun w => cutting_release _) fun bytes hb w rest k h => ?_
  subst hb
  exact ⟨_, _, rfl, CString.ofBuffer_bytes s, h.wrote _⟩

theorem takes_body (held : List Ptr) {body : Bytes} (hb : body.length < 2 ^ 32) :
    Takes cuts errno (recvBody held) ([4] ++ if body = [] then [] else [body.length])
      (u32 (UInt32.ofNat body.length) ++ body)
      fun r => r.1 = UInt32.ofNat body.length ∧ r.2.map (·.2) = if body = [] then none else some body := by
  have hlt : body.length < UInt32.size := hb
  refine Reader.reads_attempt (takes_recv_n (u32_length _)) (fun w => cutting_release held) fun size hsize => ?_
  subst hsize
  simp only [ofLE_u32, UInt32.toNat_ofNat_of_lt' hlt]
  by_cases h0 : body = []
  · subst h0
    exact Reader.reads_done fun w rest k h => ⟨_, w, rfl, ⟨rfl, rfl⟩, h⟩
  · have hpos : (0 : UInt32) < UInt32.ofNat body.length := by
      rw [UInt32.lt_iff_toNat_lt, UInt32.toNat_ofNat_of_lt' hlt]
      exact List.length_pos_iff.mpr h0
    simp only [if_pos hpos, if_neg h0]
    refine takes_malloc (g := fun buf w => attempt (recvInto buf body.length w) (release (held ++ [buf])) fun bytes w =>
      (some (UInt32.ofNat body.length, some (buf, bytes)), w)) (fun w buf heap e => by rw [e]) fun buf => ?_
    refine Reader.reads_attempt_done (takes_recvInto buf rfl) (fun w => cutting_release _) fun bytes hb w rest k h => ?_
    subst hb
    exact ⟨_, w, rfl, ⟨rfl, rfl⟩, h⟩

theorem takes_properties (m : Message) (priority : UInt32) (expiration : UInt64) (persistent : UInt8) :
    Takes cuts errno (recvProperties m) [4, 8, 1] (u32 priority ++ (leBytes 8 expiration.toNat ++ [persistent]))
      fun r => r.toFields = { m.toFields with priority, expiration, persistent } := by
  have hexit : ∀ w, Cutting cuts errno w → Cutting cuts errno { w with heap := messageFree m w.heap } :=
    fun w h => ⟨h.reads, h.memory, h.errno⟩
  have hlast : ofLE [persistent] = persistent.toNat := by
    rw [Bytes.ofLE_cons]
    rfl
  apply Reader.reads_attempt (takes_recv_n (u32_length _)) hexit
  intro p hp
  apply Reader.reads_attempt (takes_recv_n (Bytes.leBytes_length 8 _)) hexit
  intro x hx
  apply Reader.reads_attempt_done (takes_recv_n (n := 1) rfl) hexit
  intro d hd w rest k h
  subst hp hx hd
  simp only [ofLE_u32, Bytes.ofLE_uint64, hlast, UInt8.ofNat_toNat]
  exact ⟨_, w, rfl, rfl, h⟩

theorem takes_create (f : Frame) {exchange routingKey : Ptr × CString} {body : UInt32 × Option (Ptr × Bytes)}
    (he : exchange.2 = f.exchange) (hk : routingKey.2 = f.routingKey) (hsize : body.1 = UInt32.ofNat f.body.length)
    (hbody : body.2.map (·.2) = if f.body = [] then none else some f.body) :
    Takes cuts errno (recvCreate exchange routingKey body) [] []
      fun m => m.toFields = { f.fields with priority := 0, expiration := 0, persistent := 0 } := by
  apply Reader.reads_done
  intro w rest k h
  have h64 : body.1.toUInt64 = UInt64.ofNat f.body.length := by
    have hlt : f.body.length < UInt32.size := f.bodyFits
    apply UInt64.toNat_inj.mp
    rw [hsize, UInt32.toNat_toUInt64, UInt32.toNat_ofNat_of_lt' hlt, UInt64.toNat_ofNat_of_lt']
    exact Nat.lt_trans hlt (by decide)
  have hlen : (UInt64.ofNat f.body.length).toNat = f.body.length :=
    UInt64.toNat_ofNat_of_lt' (Nat.lt_trans f.bodyFits (by decide))
  have hpos : 0 < UInt64.ofNat f.body.length ↔ f.body ≠ [] := by
    rw [UInt64.lt_iff_toNat_lt, hlen]
    exact List.length_pos_iff
  have hnull : ¬ (body.2.map (·.2) = none ∧ 0 < body.1.toUInt64) := by
    rw [hbody, h64, hpos]
    intro hc
    obtain ⟨hn, hne⟩ := hc
    rw [if_neg hne] at hn
    cases hn
  obtain ⟨m, heap, e, hm, hf⟩ := create_fields h.cutting.memory exchange.2 routingKey.2 hnull
  simp only [recvCreate, e]
  have herrno : (if w.heap.Refused heap then ENOMEM else w.errno) = errno :=
    (if_neg (h.cutting.memory.not_refused heap)).trans h.cutting.errno
  refine ⟨m, _, rfl, ?_, ⟨h.cutting.reads, hm, herrno⟩, h.input, h.calls⟩
  rw [hf, he, hk, hbody, h64, Frame.fields]
  by_cases hb : f.body = []
  · rw [if_neg (by rw [hpos]; simpa using hb), if_pos hb]
  · rw [if_pos (hpos.mpr hb), if_neg hb, Option.map_some, hlen, List.take_length]

theorem encode_eq (f : Frame) : f.encode =
    u32 MESSAGE_MAGIC ++ ((u32 (UInt32.ofNat f.exchange.strlen) ++ f.exchange.bytes) ++
      ((u32 (UInt32.ofNat f.routingKey.strlen) ++ f.routingKey.bytes) ++
        ((u32 (UInt32.ofNat f.body.length) ++ f.body) ++
          ([] ++ (u32 f.priority ++ (leBytes 8 f.expiration.toNat ++ [f.persistent])))))) := by
  have hs : ∀ {s : CString}, s.strlen ≤ 2 ^ 32 - 2 → s.bytes.take (UInt32.ofNat s.strlen).toNat = s.bytes := by
    intro s h
    have hlt : s.strlen < UInt32.size := Nat.lt_of_le_of_lt h (by decide)
    rw [UInt32.toNat_ofNat_of_lt' hlt]
    exact List.take_length
  have hsize : (UInt64.ofNat f.body.length).toUInt32 = UInt32.ofNat f.body.length := by
    apply UInt32.toNat_inj.mp
    simp
  have hlen : (UInt32.ofNat f.body.length).toNat = f.body.length := UInt32.toNat_ofNat_of_lt' f.bodyFits
  have hpos : 0 < UInt32.ofNat f.body.length ↔ f.body ≠ [] := by
    rw [UInt32.lt_iff_toNat_lt, hlen]
    exact List.length_pos_iff
  simp only [Frame.encode, sends, Frame.fields, hs f.exchangeFits, hs f.routingKeyFits, hsize, hlen, Option.getD_some]
  by_cases hb : f.body = []
  · rw [if_neg (by rw [hpos]; simpa using hb)]
    simp [hb]
  · rw [if_pos (hpos.mpr hb)]
    simp [hb]

theorem requests_le (f : Frame) : ∀ n ∈ f.requests, n ≤ 2 ^ 32 := by
  intro n hn
  have h1 := f.exchangeFits
  have h2 := f.routingKeyFits
  have h3 := f.bodyFits
  simp only [Frame.requests, List.mem_append, List.mem_cons, List.not_mem_nil, or_false] at hn
  rcases hn with ((h | h | h | h | h | h) | h) | h | h | h
  case inl.inr =>
    split at h
    · cases h
    · rw [List.mem_singleton.mp h]
      omega
  all_goals omega

/-- The reader given a frame. -/
theorem receive_reads {fd : Int} (hfd : 0 ≤ fd) (f : Frame) :
    Takes cuts errno (receiveMessageData fd) f.requests f.encode fun m => m.toFields = f.fields := by
  have hid : ∀ w : World, Cutting cuts errno w → Cutting cuts errno (id w) := fun _ h => h
  have hreq : f.requests = [4] ++ ([4, f.exchange.strlen] ++ ([4, f.routingKey.strlen] ++
      (([4] ++ if f.body = [] then [] else [f.body.length]) ++ ([] ++ [4, 8, 1])))) := by
    simp [Frame.requests]
  have hneg : ¬ fd < 0 := by omega
  rw [hreq, encode_eq]
  unfold receiveMessageData
  simp only [if_neg hneg]
  apply Reader.reads_attempt (takes_recv_n (u32_length _)) hid
  intro magic hmagic
  subst hmagic
  simp only [ofLE_u32, ne_eq, not_true, if_false]
  apply Reader.reads_attempt (takes_string _ f.exchangeFits) hid
  intro exchange he
  apply Reader.reads_attempt (takes_string _ f.routingKeyFits) hid
  intro routingKey hk
  apply Reader.reads_attempt (takes_body _ f.bodyFits) hid
  intro body hb
  apply Reader.reads_attempt (takes_create f he hk hb.1 hb.2) hid
  intro m hm
  apply Reader.reads_mono (takes_properties m f.priority f.expiration f.persistent)
  intro r hr
  rw [hr, hm]
  rfl

end Stages

/-! ## What is written -/

/-- `send_message_data` for each message in turn. -/
def sendMany (fd : Int) : List Fields → Outlet → Option Outlet
  | [], o => some o
  | m :: ms, o => (sendMessageData fd m o).bind fun r => sendMany fd ms r.2

/-- Every `send` writes all it is given. -/
def Complete (o : Outlet) : Prop := ∀ k, o.outcome k = .all

theorem sendEach_complete (bufs : List Bytes) {o : Outlet} (ho : Complete o) :
    ∃ o', sendEach bufs o = (1, o') ∧ o'.stream = o.stream ++ bufs.flatten ∧ Complete o' := by
  induction bufs generalizing o with
  | nil => exact ⟨o, rfl, (List.append_nil _).symm, ho⟩
  | cons buf bufs ih =>
    have hsend : send buf o = (some buf.length, { o with stream := o.stream ++ buf, calls := o.calls + 1 }) := by
      simp only [send, ho o.calls]
    obtain ⟨o', e, hs, hc⟩ := ih (o := { o with stream := o.stream ++ buf, calls := o.calls + 1 }) ho
    refine ⟨o', ?_, ?_, hc⟩
    · simp only [sendEach, hsend, if_true, e]
    · rw [hs, List.flatten_cons, List.append_assoc]

theorem sends_fields (f : Frame) : ∃ bufs, sends f.fields = some bufs ∧ bufs.flatten = f.encode := by
  have h : ∃ bufs, sends f.fields = some bufs := ⟨_, rfl⟩
  obtain ⟨bufs, e⟩ := h
  exact ⟨bufs, e, by rw [Frame.encode, e, Option.getD_some]⟩

theorem send_writes_the_frame {fd : Int} (hfd : 0 ≤ fd) (f : Frame) {o : Outlet} (ho : Complete o) :
    ∃ o', sendMessageData fd f.fields o = some (1, o') ∧ o'.stream = o.stream ++ f.encode ∧ Complete o' := by
  obtain ⟨bufs, e, hb⟩ := sends_fields f
  obtain ⟨o', e', hs, hc⟩ := sendEach_complete bufs ho
  refine ⟨o', ?_, by rw [hs, hb], hc⟩
  rw [sendMessageData, if_neg (by omega), e, Option.map_some, e']

theorem sendMany_writes {fd : Int} (hfd : 0 ≤ fd) (fs : List Frame) {o : Outlet} (ho : Complete o) :
    ∃ o', sendMany fd (fs.map Frame.fields) o = some o' ∧ o'.stream = o.stream ++ fs.flatMap Frame.encode := by
  induction fs generalizing o with
  | nil => exact ⟨o, rfl, (List.append_nil _).symm⟩
  | cons f fs ih =>
    obtain ⟨o1, e1, hs1, hc1⟩ := send_writes_the_frame hfd f ho
    obtain ⟨o2, e2, hs2⟩ := ih hc1
    refine ⟨o2, ?_, ?_⟩
    · rw [List.map_cons, sendMany, e1, Option.bind_some, e2]
    · rw [hs2, hs1, List.flatMap_cons, List.append_assoc]

/-! ## (1) Short reads -/

/-- The next message received is the frame's. -/
def Decodes (fd : Int) (w : World) (f : Frame) : Prop :=
  ∃ m, (receiveMessageData fd w).1 = some m ∧ m.toFields = f.fields

/-- A frame is decoded exactly when each `recv` returns all it is asked for. -/
theorem decoded_iff_no_read_is_short {fd : Int} (hfd : 0 ≤ fd) (f : Frame) {cuts : Nat → Nat} {errno k : Nat} {w : World}
    {rest : Bytes} (h : Ahead cuts errno w (f.encode ++ rest) k) :
    Decodes fd w f ↔ ∀ i n, f.requests[i]? = some n → n ≤ max 1 (cuts (k + i)) := by
  have hiff : Granted (Full cuts) k f.requests ↔ ∀ i n, f.requests[i]? = some n → n ≤ max 1 (cuts (k + i)) :=
    Reader.granted_iff (Full cuts)
  rw [← hiff]
  obtain ⟨h1, h2⟩ := receive_reads hfd f w rest k h
  constructor
  · intro hd
    obtain ⟨m, e, -⟩ := hd
    by_contra hn
    obtain ⟨w', e'⟩ := h2 hn
    rw [e'.1] at e
    cases e
  · intro hg
    obtain ⟨m, w', e, hm, -⟩ := h1 hg
    exact ⟨m, by rw [e], hm⟩

/-- Exchange "a", routing key "b", two bytes of body. -/
def twoBytes : Frame where
  exchange := ⟨[97], by decide⟩
  routingKey := ⟨[98], by decide⟩
  body := [1, 2]
  priority := 0
  expiration := 0
  persistent := 0
  exchangeFits := by decide
  routingKeyFits := by decide
  bodyFits := by decide

/-- A connection with `input` ahead, read in pieces of at most `cuts`. -/
def inletOf (input : Bytes) (cuts : Nat → Nat) : World :=
  ⟨⟨input, fun k => .upTo (cuts k), 0⟩, ⟨0, fun _ => false, [], []⟩, 0, []⟩

theorem inletOf_ahead (input : Bytes) (cuts : Nat → Nat) : Ahead cuts 0 (inletOf input cuts) input 0 :=
  ⟨⟨fun _ => rfl, fun _ => rfl, rfl⟩, rfl, rfl⟩

/-- The seventh `recv`, for the body, returns its first byte. -/
theorem a_body_in_two_segments_is_lost :
    Ahead (fun k => if k = 6 then 1 else 64) 0 (inletOf twoBytes.encode fun k => if k = 6 then 1 else 64)
      twoBytes.encode 0 ∧ ¬ Decodes 3 (inletOf twoBytes.encode fun k => if k = 6 then 1 else 64) twoBytes := by
  refine ⟨inletOf_ahead _ _, ?_⟩
  intro hd
  obtain ⟨m, hm, -⟩ := hd
  have hnone : (receiveMessageData 3 (inletOf twoBytes.encode fun k => if k = 6 then 1 else 64)).1 = none := by
    decide +kernel
  rw [hnone] at hm
  cases hm

/-- Segments of eight bytes happen to cover each read of this frame. -/
theorem decoded_in_segments_of_eight : Decodes 3 (inletOf (twoBytes.encode ++ []) fun _ => 8) twoBytes := by
  have hall : ∀ n ∈ twoBytes.requests, n ≤ max 1 8 := by decide
  exact (decoded_iff_no_read_is_short (by decide) twoBytes (inletOf_ahead _ _)).mpr fun i n hn =>
    hall n (List.mem_of_getElem? hn)

/-! ## (2) Streams of frames -/

/-- At the end of the stream the reader gives up at its first `recv`. -/
theorem receive_at_end {fd : Int} (hfd : 0 ≤ fd) {cuts : Nat → Nat} {errno k : Nat} {w : World}
    (h : Ahead cuts errno w [] k) :
    ∃ w', receiveMessageData fd w = (none, w') ∧ Ahead cuts errno w' [] (k + 1) := by
  obtain ⟨w', e, h'⟩ := recv_upTo h 4
  rw [List.drop_nil] at h'
  rw [List.take_nil] at e
  have hneg : ¬ fd < 0 := by omega
  have hnone : recvFull 4 w = (none, w') := by simp [recvFull, e]
  unfold receiveMessageData
  simp only [if_neg hneg, hnone, attempt]
  exact ⟨w', rfl, h'⟩

/-- A peer that reads `stream` in full, in any number of calls that suffices, gets `ms` in
    order, field by field, and leaves no byte. -/
def PeerGets (stream : Bytes) (ms : List Fields) : Prop :=
  ∀ (fd : Int) (cuts : Nat → Nat) (errno k : Nat) (w : World), 0 ≤ fd → Ahead cuts errno w stream k →
    (∀ j, 2 ^ 32 ≤ cuts j) → ∀ n, ms.length ≤ n →
      ∃ got w', Reader.many (receiveMessageData fd) n w = (got, w') ∧ got.map (·.toFields) = ms ∧ w'.inlet.input = []

theorem peer_gets_frames (fs : List Frame) : PeerGets (fs.flatMap Frame.encode) (fs.map Frame.fields) := by
  intro fd cuts errno k w hfd h hfull n hn
  rw [List.length_map] at hn
  rw [← List.append_nil (fs.flatMap _)] at h
  have hg : Granted (Full cuts) k (fs.flatMap Frame.requests) := by
    rw [Reader.granted_iff]
    intro i m hm
    obtain ⟨f, -, hf⟩ := List.mem_flatMap.mp (List.mem_of_getElem? hm)
    have hle := requests_le f m hf
    have := hfull (k + i)
    unfold Full
    omega
  obtain ⟨ms, w', hmany, hsame, h'⟩ := Reader.many_reads (fun f _ => receive_reads hfd f) h hg
  obtain ⟨d, rfl⟩ := Nat.exists_eq_add_of_le hn
  have hfields : ms.map (·.toFields) = fs.map Frame.fields := by
    rw [← List.forall₂_eq_eq_eq, List.forall₂_map_left_iff, List.forall₂_map_right_iff]
    exact hsame.flip
  cases d with
  | zero =>
    refine ⟨ms, w', ?_, hfields, h'.input⟩
    rw [hmany 0, Reader.many, List.append_nil]
  | succ d =>
    obtain ⟨w'', e, h''⟩ := receive_at_end hfd h'
    refine ⟨ms, w'', ?_, hfields, h''.input⟩
    rw [hmany (d + 1)]
    simp only [Reader.many, e, List.append_nil]

/-- Sent in full and read in full, a list of messages comes back. -/
theorem frames_read_back {fd : Int} (hfd : 0 ≤ fd) (fs : List Frame) {o : Outlet} (ho : Complete o)
    (hempty : o.stream = []) :
    ∃ o', sendMany fd (fs.map Frame.fields) o = some o' ∧ PeerGets o'.stream (fs.map Frame.fields) := by
  obtain ⟨o', e, hs⟩ := sendMany_writes hfd fs ho
  rw [hempty, List.nil_append] at hs
  refine ⟨o', e, ?_⟩
  rw [hs]
  exact peer_gets_frames fs

/-- Nothing in it but the framing. -/
def nothing : Frame where
  exchange := ⟨[], by decide⟩
  routingKey := ⟨[], by decide⟩
  body := []
  priority := 7
  expiration := 60000
  persistent := 1
  exchangeFits := by decide
  routingKeyFits := by decide
  bodyFits := by decide

theorem frames_read_back_of_two : ∃ o', sendMany 3 ([twoBytes, nothing].map Frame.fields) ⟨[], fun _ => .all, 0⟩ = some o' ∧
    PeerGets o'.stream ([twoBytes, nothing].map Frame.fields) :=
  frames_read_back (by decide) [twoBytes, nothing] (fun _ => rfl) rfl

end RabbitMQ.Core
