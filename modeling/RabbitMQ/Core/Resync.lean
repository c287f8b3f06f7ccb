/-
  RabbitMQ.Core.Resync — what a `connection_send` that fails does to the messages after it.

  With no other call in between, a call of `connection_send` is one step (`call_alone`). It
  gives up at the first `send` that is not whole: what it has written of the frame
  stays in the stream, and the connection stays connected (`linkStep_cases`). The peer has
  only lengths to go by, so what is missing of the frame is taken from the next one
  (`cut_frame_swallows`). A stream the peer can read is left exactly by the calls whose
  first `send` writes nothing (`resynced_iff`, `a_cut_frame_swallows_the_next`).
-/

import RabbitMQ.Core.Connection
import RabbitMQ.Core.Decoding
import RabbitMQ.Lib.Run

namespace RabbitMQ.Core

open Lib
open Lib.Bytes (leBytes ofLE)
open Lib.Reader (attempt attempts exactly)

/-! ## Calls in turn -/

structure SendCall where
  message : Frame
  /-- What each `send` of the call does. -/
  outcome : Nat → SendOutcome

/-- The stream of a connection, and the calls made with what each returned. -/
structure Link where
  stream : Bytes
  log : List (Frame × Nat)

def SendCall.result (e : SendCall) (c : Connection) (l : Link) : Option (Nat × Outlet) :=
  connectionSend c e.message.fields ⟨l.stream, e.outcome, 0⟩

def linkStep (c : Connection) (l : Link) (e : SendCall) : Link :=
  match e.result c l with
  | some (val, o) => ⟨o.stream, l.log ++ [(e.message, val)]⟩
  | none => l

/-- A connection nothing has been sent on. -/
def freshLink : Link := ⟨[], []⟩

/-- Nothing of the frame is written: the call does not get to its first `send`, or that one
    writes nothing. -/
def Mute (c : Connection) (e : SendCall) : Prop :=
  c.status ≠ .connected ∨ c.socketFd < 0 ∨ e.outcome 0 = .error ∨ e.outcome 0 = .short 0

/-- A call that returns 1, or fails with nothing written. -/
def Clean (c : Connection) (l : Link) (e : SendCall) : Prop := (e.result c l).map (·.1) = some 1 ∨ Mute c e

/-- What the calls that returned 1 were given. -/
def sentOn (l : Link) : List Frame := (l.log.filter fun r => r.2 = 1).map (·.1)

/-- A peer that reads in full and goes on after each NULL, in any number of calls that
    suffices, is given every message a call returned 1 for, and none that was not passed. -/
def Faithful (l : Link) : Prop :=
  ∀ (fd : Int) (cuts : Nat → Nat) (errno k : Nat) (w : World), 0 ≤ fd → Ahead cuts errno w l.stream k →
    (∀ j, 2 ^ 32 ≤ cuts j) → ∀ n, l.log.length ≤ n →
      List.Subperm ((sentOn l).map Frame.fields) ((attempts (receiveMessageData fd) n w).1.map (·.toFields)) ∧
        ∀ v ∈ (attempts (receiveMessageData fd) n w).1.map (·.toFields), ∃ r ∈ l.log, v = r.1.fields

/-! ## A call as its steps -/

theorem sending_alone (message : Nat → Fields) {i : Nat} {fd : Int} (bufs : List Bytes) {s : Sending}
    (h : s.progress i = .sending fd bufs) : ∃ n,
    (Run.run (sendStep message) s (List.replicate n i)).progress i = .returned (sendEach bufs s.outlet).1 ∧
    (Run.run (sendStep message) s (List.replicate n i)).outlet = (sendEach bufs s.outlet).2 := by
  induction bufs generalizing s with
  | nil =>
    have hstep : sendStep message s i = { s with progress := Function.update s.progress i (.returned 1) } := by
      simp only [sendStep, h]
    refine ⟨1, ?_, ?_⟩
    · rw [List.replicate_one, Run.run_cons, Run.run_nil, hstep]
      exact Function.update_self ..
    · rw [List.replicate_one, Run.run_cons, Run.run_nil, hstep]
      rfl
  | cons buf left ih =>
    by_cases hs : (send buf s.outlet).1 = some buf.length
    · have hstep : sendStep message s i =
          { s with progress := Function.update s.progress i (.sending fd left), outlet := (send buf s.outlet).2 } := by
        simp only [sendStep, h, if_pos hs]
      obtain ⟨n, hp, ho⟩ := ih (s := sendStep message s i) (by rw [hstep]; exact Function.update_self ..)
      refine ⟨n + 1, ?_⟩
      rw [List.replicate_succ, Run.run_cons, sendEach, if_pos hs, hp, ho, hstep]
      exact ⟨rfl, rfl⟩
    · have hstep : sendStep message s i =
          { s with progress := Function.update s.progress i (.returned 0), outlet := (send buf s.outlet).2 } := by
        simp only [sendStep, h, if_neg hs]
      refine ⟨1, ?_⟩
      rw [List.replicate_one, Run.run_cons, Run.run_nil, sendEach, if_neg hs, hstep]
      exact ⟨Function.update_self .., rfl⟩

/-- A call that takes its steps with no other in between is `connectionSend`. -/
theorem call_alone (message : Nat → Fields) {i : Nat} {s : Sending} (h : s.progress i = .called) {val : Nat} {o : Outlet}
    (hsend : connectionSend s.conn (message i) s.outlet = some (val, o)) : ∃ n,
    (Run.run (sendStep message) s (List.replicate n i)).progress i = .returned val ∧
    (Run.run (sendStep message) s (List.replicate n i)).outlet = o := by
  unfold connectionSend sendMessageData at hsend
  by_cases hst : s.conn.status ≠ .connected
  · rw [if_pos hst] at hsend
    cases hsend
    have hstep : sendStep message s i = { s with progress := Function.update s.progress i (.returned 0) } := by
      simp only [sendStep, h, if_pos hst]
    refine ⟨1, ?_⟩
    rw [List.replicate_one, Run.run_cons, Run.run_nil, hstep]
    exact ⟨Function.update_self .., rfl⟩
  by_cases hfd : s.conn.socketFd < 0
  · rw [if_neg hst, if_pos hfd] at hsend
    cases hsend
    have hstep : sendStep message s i = { s with progress := Function.update s.progress i (.returned 0) } := by
      simp only [sendStep, h, if_neg hst, if_pos hfd]
    refine ⟨1, ?_⟩
    rw [List.replicate_one, Run.run_cons, Run.run_nil, hstep]
    exact ⟨Function.update_self .., rfl⟩
  rw [if_neg hst, if_neg hfd] at hsend
  obtain ⟨bufs, hbufs, he⟩ := Option.map_eq_some_iff.mp hsend
  have hstep : sendStep message s i = { s with progress := Function.update s.progress i (.sending s.conn.socketFd bufs) } := by
    simp only [sendStep, h, if_neg hst, if_neg hfd, hbufs]
  have hbegun : (sendStep message s i).progress i = .sending s.conn.socketFd bufs := by
    rw [hstep]
    exact Function.update_self ..
  obtain ⟨n, hp, ho⟩ := sending_alone message bufs hbegun
  refine ⟨n + 1, ?_⟩
  rw [List.replicate_succ, Run.run_cons, hp, ho, hstep]
  exact ⟨by rw [he], by rw [he]⟩

/-! ## What one call writes -/

theorem send_parts (buf : Bytes) (o : Outlet) : ∃ written left, written ++ left = buf ∧
    (send buf o).2 = { o with stream := o.stream ++ written, calls := o.calls + 1 } ∧
    ((send buf o).1 = some buf.length → left = []) ∧
    (buf ≠ [] → (left = [] → (send buf o).1 = some buf.length) ∧
      (written = [] ↔ o.outcome o.calls = .error ∨ o.outcome o.calls = .short 0)) := by
  unfold send
  cases hout : o.outcome o.calls with
  | all =>
    refine ⟨buf, [], List.append_nil _, rfl, fun _ => rfl, fun hbuf => ⟨fun _ => rfl, ?_⟩⟩
    simp [hbuf]
  | short n =>
    refine ⟨buf.take n, buf.drop n, List.take_append_drop n buf, rfl, ?_, fun hbuf => ⟨?_, ?_⟩⟩
    · intro h
      have hlen : (buf.take n).length = buf.length := Option.some.inj h
      rw [List.length_take] at hlen
      exact List.drop_eq_nil_of_le (by omega)
    · intro h
      have hle : buf.length ≤ n := List.drop_eq_nil_iff.mp h
      show some (buf.take n).length = _
      rw [List.take_of_length_le hle]
    · rw [List.take_eq_nil_iff]
      simp [hbuf]
  | error =>
    refine ⟨[], buf, rfl, by rw [List.append_nil], ?_, fun hbuf => ⟨?_, ?_⟩⟩
    · intro h
      cases h
    · intro h
      exact absurd h hbuf
    · simp

/-- A last buffer of one byte: it is left over whenever the call fails. -/
theorem sendEach_parts (bufs : List Bytes) (b : UInt8) (o : Outlet) : ∃ written left,
    written ++ left = bufs.flatten ++ [b] ∧ (sendEach (bufs ++ [[b]]) o).2.stream = o.stream ++ written ∧
    (sendEach (bufs ++ [[b]]) o).1 = if left = [] then 1 else 0 := by
  induction bufs generalizing o with
  | nil =>
    obtain ⟨written, left, hbuf, hafter, hfull, hpart⟩ := send_parts [b] o
    obtain ⟨hleft, -⟩ := hpart (List.cons_ne_nil b [])
    refine ⟨written, left, hbuf, ?_, ?_⟩
    · simp only [List.nil_append, sendEach]
      split
      · simp only [hafter]
      · simp only [hafter]
    · simp only [List.nil_append, sendEach]
      by_cases hl : left = []
      · rw [if_pos (hleft hl), if_pos hl]
      · rw [if_neg fun h => hl (hfull h), if_neg hl]
  | cons buf bufs ih =>
    obtain ⟨written, left, hbuf, hafter, hfull, -⟩ := send_parts buf o
    by_cases hs : (send buf o).1 = some buf.length
    · have hl := hfull hs
      rw [hl, List.append_nil] at hbuf
      obtain ⟨written', left', hbufs, hstream, hval⟩ := ih (send buf o).2
      refine ⟨buf ++ written', left', ?_, ?_, ?_⟩
      · rw [List.append_assoc, hbufs, List.flatten_cons, List.append_assoc]
      · simp only [List.cons_append, sendEach, if_pos hs]
        rw [hstream, hafter, hbuf, List.append_assoc]
      · simp only [List.cons_append, sendEach, if_pos hs]
        exact hval
    · refine ⟨written, left ++ (bufs.flatten ++ [b]), ?_, ?_, ?_⟩
      · rw [← List.append_assoc, hbuf, List.flatten_cons, List.append_assoc]
      · simp only [List.cons_append, sendEach, if_neg hs]
        rw [hafter]
      · simp only [List.cons_append, sendEach, if_neg hs]
        rw [if_neg (by simp)]

theorem sendEach_mute {buf : Bytes} (hbuf : buf ≠ []) (bufs : List Bytes) (b : UInt8) (o : Outlet) :
    (sendEach (buf :: (bufs ++ [[b]])) o).2.stream = o.stream ↔
      o.outcome o.calls = .error ∨ o.outcome o.calls = .short 0 := by
  obtain ⟨written, left, hparts, hafter, hfull, hpart⟩ := send_parts buf o
  obtain ⟨hleft, hmute⟩ := hpart hbuf
  rw [← hmute]
  by_cases hs : (send buf o).1 = some buf.length
  · have hwhole : written = buf := by rw [← hparts, hfull hs, List.append_nil]
    obtain ⟨written', left', -, hstream, -⟩ := sendEach_parts bufs b (send buf o).2
    simp only [sendEach, if_pos hs]
    rw [hstream, hafter, hwhole, List.append_assoc, List.append_right_eq_self]
    simp [hbuf]
  · simp only [sendEach, if_neg hs, hafter, List.append_right_eq_self]

theorem sends_shape (f : Frame) : ∃ bufs, sends f.fields = some (u32 MESSAGE_MAGIC :: (bufs ++ [[f.persistent]])) := by
  have hlist : ∀ (magic x y z : Bytes) (lengths body : List Bytes),
      magic :: lengths ++ body ++ [x, y, z] = magic :: (lengths ++ body ++ [x, y] ++ [z]) := by
    intro magic x y z lengths body
    simp
  exact ⟨_, congrArg some (hlist _ _ _ _ _ _)⟩

/-- A call writes nothing and fails, writes its frame and succeeds, or leaves the frame cut. -/
theorem linkStep_cases (c : Connection) (l : Link) (e : SendCall) :
    (Mute c e ∧ (e.result c l).map (·.1) = some 0 ∧ linkStep c l e = ⟨l.stream, l.log ++ [(e.message, 0)]⟩) ∨
    (¬ Mute c e ∧ (e.result c l).map (·.1) = some 1 ∧
      linkStep c l e = ⟨l.stream ++ e.message.encode, l.log ++ [(e.message, 1)]⟩) ∨
    (¬ Mute c e ∧ (e.result c l).map (·.1) = some 0 ∧ ∃ cut left, cut ≠ [] ∧ left ≠ [] ∧ cut ++ left = e.message.encode ∧
      linkStep c l e = ⟨l.stream ++ cut, l.log ++ [(e.message, 0)]⟩) := by
  by_cases hst : c.status ≠ .connected
  · have hres : e.result c l = some (0, ⟨l.stream, e.outcome, 0⟩) := if_pos hst
    exact Or.inl ⟨Or.inl hst, by rw [hres]; rfl, by rw [linkStep, hres]⟩
  by_cases hfd : c.socketFd < 0
  · have hres : e.result c l = some (0, ⟨l.stream, e.outcome, 0⟩) := (if_neg hst).trans (if_pos hfd)
    exact Or.inl ⟨Or.inr (Or.inl hfd), by rw [hres]; rfl, by rw [linkStep, hres]⟩
  obtain ⟨bufs, hbufs⟩ := sends_shape e.message
  have hres : e.result c l = some (sendEach (u32 MESSAGE_MAGIC :: (bufs ++ [[e.message.persistent]])) ⟨l.stream, e.outcome, 0⟩) := by
    rw [SendCall.result, connectionSend, if_neg hst, sendMessageData, if_neg hfd, hbufs, Option.map_some]
  have hmagic : u32 MESSAGE_MAGIC ≠ [] := List.ne_nil_of_length_eq_add_one (u32_length _)
  have hmute := sendEach_mute hmagic bufs e.message.persistent ⟨l.stream, e.outcome, 0⟩
  have hframe : (u32 MESSAGE_MAGIC :: bufs).flatten ++ [e.message.persistent] = e.message.encode := by
    rw [Frame.encode, hbufs, Option.getD_some]
    simp
  obtain ⟨written, left, hparts, hstream, hval⟩ :=
    sendEach_parts (u32 MESSAGE_MAGIC :: bufs) e.message.persistent ⟨l.stream, e.outcome, 0⟩
  rw [List.cons_append] at hstream hval
  rw [hframe] at hparts
  rw [hstream, List.append_right_eq_self] at hmute
  have hstep : linkStep c l e = ⟨l.stream ++ written, l.log ++ [(e.message, if left = [] then 1 else 0)]⟩ := by
    rw [linkStep, hres, ← hstream, ← hval]
  rw [hres, Option.map_some, hval, hstep]
  by_cases hw : written = []
  · have hl : left ≠ [] := by
      rintro rfl
      rw [hw] at hparts
      have hlen := congrArg List.length hparts
      rw [← hframe] at hlen
      simp at hlen
    rw [if_neg hl, hw, List.append_nil]
    exact Or.inl ⟨Or.inr (Or.inr (hmute.mp hw)), rfl, rfl⟩
  have hloud : ¬ Mute c e := by
    intro h
    rcases h with h | h | h
    · exact hst h
    · exact hfd h
    · exact hw (hmute.mpr h)
  by_cases hl : left = []
  · rw [hl, List.append_nil] at hparts
    rw [if_pos hl, hparts]
    exact Or.inr (Or.inl ⟨hloud, rfl, rfl⟩)
  · rw [if_neg hl]
    exact Or.inr (Or.inr ⟨hloud, rfl, written, left, hw, hl, hparts, rfl⟩)

/-! ## A cut frame and the frame after it -/

theorem decode_eq (bs : Bytes) :
    decode bs = if bs.take 4 = u32 MESSAGE_MAGIC then decodeRest (bs.drop 4) else (none, bs.drop 4) := by
  unfold decode exactly
  by_cases hle : 4 ≤ bs.length
  · have hlen : (bs.take 4).length = 4 := List.length_take_of_le hle
    simp only [if_pos hle, attempt]
    by_cases hmagic : bs.take 4 = u32 MESSAGE_MAGIC
    · rw [if_pos hmagic, hmagic, ofLE_u32, if_neg (not_not_intro rfl)]
    · rw [if_neg hmagic, if_pos]
      intro h
      apply hmagic
      rw [← h]
      exact (Bytes.leBytes_uint32 hlen).symm
  · have hshort : bs.take 4 ≠ u32 MESSAGE_MAGIC := by
      intro h
      have hlen := congrArg List.length h
      rw [u32_length, List.length_take] at hlen
      omega
    rw [if_neg hle, if_neg hshort, List.drop_of_length_le (by omega)]
    rfl

/-- The first byte of the magic number. -/
def magicByte : UInt8 := 81

/-- With no magic number ahead, nothing more is received. -/
theorem attempts_none {bs : Bytes} (h : magicByte ∉ bs) (n : Nat) : (attempts decode n bs).1 = [] := by
  induction n generalizing bs with
  | zero => rfl
  | succ n ih =>
    have hmagic : bs.take 4 ≠ u32 MESSAGE_MAGIC := by
      intro hm
      have hq : magicByte ∈ u32 MESSAGE_MAGIC := by decide
      rw [← hm] at hq
      exact h (List.mem_of_mem_take hq)
    have hnone : decode bs = (none, bs.drop 4) := by rw [decode_eq, if_neg hmagic]
    simp only [attempts, hnone, Option.toList_none, List.nil_append]
    exact ih fun hq => h (List.mem_of_mem_drop hq)

/-- A message with nothing in it but a one-byte exchange name. -/
def tagged (x : UInt8) (hx : x ≠ 0) : Frame where
  exchange := ⟨[x], by simpa using hx.symm⟩
  routingKey := nothing.routingKey
  body := nothing.body
  priority := 0
  expiration := 0
  persistent := 0
  exchangeFits := Nat.le_add_left 1 _
  routingKeyFits := nothing.routingKeyFits
  bodyFits := nothing.bodyFits

theorem tagged_encode (x : UInt8) (hx : x ≠ 0) :
    (tagged x hx).encode = u32 MESSAGE_MAGIC ++ ([1, 0, 0, 0, x] ++ List.replicate 21 0) := by
  have hone : u32 (UInt32.ofNat 1) = [1, 0, 0, 0] := by decide
  have hzero : u32 (UInt32.ofNat 0) = [0, 0, 0, 0] := by decide
  have hnever : leBytes 8 (0 : UInt64).toNat = List.replicate 8 0 := by decide
  rw [encode_eq]
  show _ ++ ((u32 (UInt32.ofNat 1) ++ [x]) ++ ((u32 (UInt32.ofNat 0) ++ []) ++ ((u32 (UInt32.ofNat 0) ++ []) ++
    ([] ++ (u32 (UInt32.ofNat 0) ++ (leBytes 8 (0 : UInt64).toNat ++ [0])))))) = _
  rw [hone, hzero, hnever]
  rfl

/-- The magic number does not begin again inside it. -/
theorem tagged_tail {x : UInt8} (hx : x ≠ 0) (hq : x ≠ magicByte) {n : Nat} (hn : 0 < n) :
    magicByte ∉ (tagged x hx).encode.drop n := by
  obtain ⟨k, rfl⟩ := Nat.exists_eq_add_of_lt hn
  intro h
  rw [Nat.zero_add, Nat.add_comm, ← List.drop_drop] at h
  have hmem := List.mem_of_mem_drop h
  rw [tagged_encode] at hmem
  simp [u32, MESSAGE_MAGIC, leBytes, magicByte] at hmem
  exact hq hmem.symm

/-- The exchange name is what is found where its length says. -/
theorem decodeRest_exchange {bs : Bytes} {v : Fields} (h : (decodeRest bs).1 = some v) :
    (UInt32.ofNat (ofLE (bs.take 4))).toNat ≤ (bs.drop 4).length ∧
      v.exchange = some (CString.ofBuffer ((bs.drop 4).take (UInt32.ofNat (ofLE (bs.take 4))).toNat)) := by
  have hfull : decodeRest bs = (some v, (decodeRest bs).2) := Prod.ext h rfl
  obtain ⟨exchange, bs1, he, h1⟩ := Reader.attempt_some hfull
  obtain ⟨len, bs2, hlen, h2⟩ := Reader.attempt_some he
  obtain ⟨bytes, bs3, hbytes, h3⟩ := Reader.attempt_some h2
  obtain ⟨-, rfl, rfl⟩ := Reader.exactly_some hlen
  obtain ⟨hle, rfl, rfl⟩ := Reader.exactly_some hbytes
  cases h3
  refine ⟨hle, ?_⟩
  obtain ⟨routingKey, bs4, -, h4⟩ := Reader.attempt_some h1
  obtain ⟨body, bs5, -, h5⟩ := Reader.attempt_some h4
  obtain ⟨priority, bs6, -, h6⟩ := Reader.attempt_some h5
  obtain ⟨expiration, bs7, -, h7⟩ := Reader.attempt_some h6
  obtain ⟨persistent, bs8, -, h8⟩ := Reader.attempt_some h7
  cases h8
  rfl

theorem ofBuffer_head {bytes : Bytes} {x : UInt8} (h : (CString.ofBuffer bytes).bytes = [x]) : bytes.head? = some x := by
  cases bytes with
  | nil => cases h
  | cons b bytes =>
    simp only [CString.ofBuffer, List.takeWhile_cons] at h
    split at h
    · rw [List.head?_cons, (List.cons.inj h).1]
    · cases h

/-- A message decoded from a cut frame and what follows has taken some of what follows. -/
theorem cut_takes_more {f : Frame} {cut left : Bytes} (hleft : left ≠ []) (h : cut ++ left = f.encode) {bs rest : Bytes}
    {v : Fields} (hd : decode (cut ++ bs) = (some v, rest)) : ∃ k, 0 < k ∧ rest = bs.drop k := by
  obtain ⟨used, hused, hexact⟩ := decode_exact _ _ _ hd
  by_cases hle : used.length ≤ cut.length
  · have hpre : used <+: cut := List.prefix_of_prefix_length_le ⟨rest, hused.symm⟩ (List.prefix_append cut bs) hle
    obtain ⟨t, rfl⟩ := hpre
    have hall := decode_frame f []
    rw [List.append_nil, ← h, List.append_assoc, hexact] at hall
    have hnil : t ++ left = [] := (Prod.mk.inj hall).2
    exact absurd (List.append_eq_nil_iff.mp hnil).2 hleft
  · refine ⟨used.length - cut.length, by omega, ?_⟩
    have hdrop := congrArg (List.drop used.length) hused
    rw [List.drop_left, List.drop_append, List.drop_of_length_le (by omega), List.nil_append] at hdrop
    exact hdrop.symm

/-- Cut inside the magic number, and followed by another. -/
theorem magic_broken {p : Nat} (h0 : 0 < p) (h4 : p < 4) (bs : Bytes) :
    ((u32 MESSAGE_MAGIC).take p ++ (u32 MESSAGE_MAGIC ++ bs)).take 4 ≠ u32 MESSAGE_MAGIC := by
  have hall : ∀ p < 4, 0 < p → (u32 MESSAGE_MAGIC).take p ++ (u32 MESSAGE_MAGIC).take (4 - p) ≠ u32 MESSAGE_MAGIC := by
    decide
  have hlen : ((u32 MESSAGE_MAGIC).take p).length = p := by
    rw [List.length_take, u32_length]
    omega
  rw [List.take_append, hlen, List.take_take, Nat.min_eq_right (by omega),
    List.take_append_of_le_length (by rw [u32_length]; omega)]
  exact hall p h4 h0

/-- Cut inside the length of the exchange name, and followed by a magic number: what is read
    for the length is more than there is. -/
theorem length_broken {cut bs : Bytes} (h4 : cut.length < 4) (hbs : bs.length ≤ 26) :
    ((cut ++ (u32 MESSAGE_MAGIC ++ bs)).drop 4).length <
      (UInt32.ofNat (ofLE ((cut ++ (u32 MESSAGE_MAGIC ++ bs)).take 4))).toNat := by
  have hall : ∀ p < 4, 2 ^ 24 ≤ 256 ^ p * ofLE ((u32 MESSAGE_MAGIC).take (4 - p)) := by decide
  have htake : (cut ++ (u32 MESSAGE_MAGIC ++ bs)).take 4 = cut ++ (u32 MESSAGE_MAGIC).take (4 - cut.length) := by
    rw [List.take_append, List.take_of_length_le (by omega), List.take_append_of_le_length (by rw [u32_length]; omega)]
  have hlen : (cut ++ (u32 MESSAGE_MAGIC).take (4 - cut.length)).length = 4 := by
    rw [List.length_append, List.length_take, u32_length]
    omega
  have hlt := Bytes.ofLE_lt (cut ++ (u32 MESSAGE_MAGIC).take (4 - cut.length))
  have hge := hall cut.length h4
  rw [hlen] at hlt
  rw [htake, UInt32.toNat_ofNat_of_lt' hlt, Bytes.ofLE_append, List.length_drop, List.length_append, List.length_append,
    u32_length]
  omega

/-- Cut anywhere after the magic number, a frame gives no message with another exchange
    name of one byte. -/
theorem cut_exchange {cut left name after bs : Bytes} {n : UInt32} (hn : n.toNat = name.length)
    (h : cut ++ left = u32 n ++ (name ++ after)) (hbs : bs.length ≤ 26) {x : UInt8} (hq : x ≠ magicByte)
    (hname : name.head? ≠ some x) {v : Fields} (hv : (decodeRest (cut ++ (u32 MESSAGE_MAGIC ++ bs))).1 = some v)
    {s : CString} (hs : s.bytes = [x]) : v.exchange ≠ some s := by
  obtain ⟨hle, hex⟩ := decodeRest_exchange hv
  intro hvs
  rw [hex] at hvs
  have hbytes := ofBuffer_head ((congrArg CString.bytes (Option.some.inj hvs)).trans hs)
  by_cases h4 : cut.length < 4
  · exact absurd (length_broken h4 hbs) (by omega)
  · have hcut : u32 n <+: cut := by
      refine List.prefix_of_prefix_length_le ⟨name ++ after, h.symm⟩ (List.prefix_append cut left) ?_
      rw [u32_length]
      omega
    obtain ⟨part, rfl⟩ := hcut
    have htake : (u32 n ++ part ++ (u32 MESSAGE_MAGIC ++ bs)).take 4 = u32 n := by
      rw [List.append_assoc]
      exact List.take_left' (u32_length n)
    have hdrop : (u32 n ++ part ++ (u32 MESSAGE_MAGIC ++ bs)).drop 4 = part ++ (u32 MESSAGE_MAGIC ++ bs) := by
      rw [List.append_assoc]
      exact List.drop_left' (u32_length n)
    rw [htake, hdrop, ofLE_u32, hn] at hbytes
    rw [List.append_assoc] at h
    have hrest : part ++ left = name ++ after := List.append_cancel_left h
    cases name with
    | nil => cases hbytes
    | cons c name =>
      cases part with
      | nil =>
        have hfirst : some magicByte = some x := hbytes
        exact hq (Option.some.inj hfirst).symm
      | cons d part =>
        have hfirst : some d = some x := hbytes
        rw [List.cons_append, List.cons_append] at hrest
        rw [(List.cons.inj hrest).1] at hfirst
        exact hname hfirst

section Swallows

variable {f : Frame} {cut left : Bytes} {x : UInt8}

/-- The reader gives up at the broken magic number, and skips the next one with it. -/
theorem cut_magic_decodes (hcut : cut ≠ []) (h : cut ++ left = f.encode) (hx : x ≠ 0) (h4 : cut.length < 4) :
    decode (cut ++ (tagged x hx).encode) = (none, (tagged x hx).encode.drop (4 - cut.length)) := by
  rw [encode_eq] at h
  have hpart : cut = (u32 MESSAGE_MAGIC).take cut.length := by
    have htake := congrArg (List.take cut.length) h
    rwa [List.take_left, List.take_append_of_le_length (by rw [u32_length]; omega)] at htake
  have hbroken := magic_broken (List.length_pos_iff.mpr hcut) h4 ([1, 0, 0, 0, x] ++ List.replicate 21 0)
  rw [← hpart, ← tagged_encode x hx] at hbroken
  rw [decode_eq, if_neg hbroken, List.drop_append, List.drop_of_length_le (by omega), List.nil_append]

/-- Past the magic number the reader takes what is missing from the next frame. -/
theorem cut_rest_decodes (hleft : left ≠ []) (h : cut ++ left = f.encode) (hx : x ≠ 0) (hq : x ≠ magicByte)
    (hf : f.exchange.bytes.head? ≠ some x) (h4 : 4 ≤ cut.length) :
    (decode (cut ++ (tagged x hx).encode)).1 ≠ some (tagged x hx).fields ∧
      magicByte ∉ (decode (cut ++ (tagged x hx).encode)).2 := by
  have hframe := h
  rw [encode_eq] at hframe
  have hmagic : u32 MESSAGE_MAGIC <+: cut := by
    refine List.prefix_of_prefix_length_le ⟨_, hframe.symm⟩ (List.prefix_append cut left) ?_
    rwa [u32_length]
  obtain ⟨part, rfl⟩ := hmagic
  have hrest : decode (u32 MESSAGE_MAGIC ++ part ++ (tagged x hx).encode) = decodeRest (part ++ (tagged x hx).encode) := by
    rw [List.append_assoc, decode_eq, if_pos (List.take_left' (u32_length _)), List.drop_left' (u32_length _)]
  cases hd : decode (u32 MESSAGE_MAGIC ++ part ++ (tagged x hx).encode) with
  | mk o rest =>
  rw [hd] at hrest
  cases o with
  | none =>
    have hdrains := decodeRest_drains _ (congrArg Prod.fst hrest).symm
    rw [← hrest] at hdrains
    rw [show rest = [] from hdrains]
    exact ⟨(Option.some_ne_none _).symm, List.not_mem_nil⟩
  | some v =>
    obtain ⟨k, hk, hdrop⟩ := cut_takes_more hleft h hd
    refine ⟨?_, by rw [hdrop]; exact tagged_tail hx hq hk⟩
    intro hv
    have hlen : (UInt32.ofNat f.exchange.strlen).toNat = f.exchange.bytes.length :=
      UInt32.toNat_ofNat_of_lt' (Nat.lt_of_le_of_lt f.exchangeFits (by decide))
    have hshort : ([1, 0, 0, 0, x] ++ List.replicate 21 (0 : UInt8)).length ≤ 26 := by simp
    rw [List.append_assoc] at hframe
    have hpart := List.append_cancel_left hframe
    rw [List.append_assoc] at hpart
    rw [tagged_encode] at hrest
    have hname := cut_exchange hlen hpart hshort hq hf (congrArg Prod.fst hrest).symm (s := (tagged x hx).exchange) rfl
    rw [Option.some.inj hv] at hname
    exact hname rfl

/-- Wherever the frame is cut, the message after it is not received. -/
theorem cut_frame_swallows (hcut : cut ≠ []) (hleft : left ≠ []) (h : cut ++ left = f.encode) (hx : x ≠ 0)
    (hq : x ≠ magicByte) (hf : f.exchange.bytes.head? ≠ some x) (n : Nat) :
    (tagged x hx).fields ∉ (attempts decode n (cut ++ (tagged x hx).encode)).1 := by
  have hfirst : (decode (cut ++ (tagged x hx).encode)).1 ≠ some (tagged x hx).fields ∧
      magicByte ∉ (decode (cut ++ (tagged x hx).encode)).2 := by
    by_cases h4 : cut.length < 4
    · rw [cut_magic_decodes hcut h hx h4]
      exact ⟨(Option.some_ne_none _).symm, tagged_tail hx hq (by omega)⟩
    · exact cut_rest_decodes hleft h hx hq hf (by omega)
  cases n with
  | zero => exact List.not_mem_nil
  | succ n =>
    simp only [attempts]
    rw [attempts_none hfirst.2 n, List.append_nil, Option.mem_toList]
    exact hfirst.1

end Swallows

/-! ## Runs of calls -/

theorem attempts_frames (fs : List Frame) (bs : Bytes) (n : Nat) :
    (attempts decode (fs.length + n) (fs.flatMap Frame.encode ++ bs)).1 =
      fs.map Frame.fields ++ (attempts decode n bs).1 := by
  induction fs with
  | nil => rw [List.length_nil, Nat.zero_add, List.flatMap_nil, List.map_nil, List.nil_append, List.nil_append]
  | cons f fs ih =>
    have hlen : (f :: fs).length + n = (fs.length + n) + 1 := by
      rw [List.length_cons]
      omega
    rw [hlen, List.flatMap_cons, List.append_assoc]
    simp only [attempts, decode_frame, Option.toList_some, ih, List.map_cons, List.cons_append, List.nil_append]

theorem sentOn_failed (l : Link) (stream : Bytes) (m : Frame) : sentOn ⟨stream, l.log ++ [(m, 0)]⟩ = sentOn l := by
  simp [sentOn]

theorem sentOn_sent (l : Link) (stream : Bytes) (m : Frame) : sentOn ⟨stream, l.log ++ [(m, 1)]⟩ = sentOn l ++ [m] := by
  simp [sentOn]

theorem sentOn_length (l : Link) : (sentOn l).length ≤ l.log.length := by
  rw [sentOn, List.length_map]
  exact List.length_filter_le _ _

/-- What the peer receives on a stream that ends in bytes it may not understand. -/
theorem peer_receives {fd : Int} (hfd : 0 ≤ fd) {cuts : Nat → Nat} {errno k : Nat} {w : World} {fs : List Frame} {bs : Bytes}
    (h : Ahead cuts errno w (fs.flatMap Frame.encode ++ bs) k) (hcuts : ∀ j, 2 ^ 32 ≤ cuts j) (n : Nat) :
    (attempts (receiveMessageData fd) (fs.length + n) w).1.map (·.toFields) =
      fs.map Frame.fields ++ (attempts decode n bs).1 := by
  rw [attempts_decode hfd h hcuts, attempts_frames]

/-- The stream is the frames of the messages that were sent. -/
def Whole (l : Link) : Prop := l.stream = (sentOn l).flatMap Frame.encode

theorem whole_step {c : Connection} (l : Link) (e : SendCall) (h : Whole l) (hc : Clean c l e) :
    Whole (linkStep c l e) := by
  rcases linkStep_cases c l e with ⟨-, -, hl⟩ | ⟨-, -, hl⟩ | ⟨hloud, hres, -⟩
  · rw [hl, Whole, sentOn_failed]
    exact h
  · rw [hl, Whole, sentOn_sent, List.flatMap_append, ← h, List.flatMap_singleton]
  · rcases hc with hc | hc
    · rw [hres] at hc
      cases hc
    · exact absurd hc hloud

theorem faithful_of_whole {l : Link} (h : Whole l) : Faithful l := by
  intro fd cuts errno k w hfd hw hcuts n hn
  obtain ⟨d, rfl⟩ := Nat.exists_eq_add_of_le (Nat.le_trans (sentOn_length l) hn)
  have hstream : l.stream = (sentOn l).flatMap Frame.encode ++ [] := by rw [List.append_nil, h]
  rw [hstream] at hw
  rw [peer_receives hfd hw hcuts, attempts_none List.not_mem_nil, List.append_nil]
  refine ⟨List.Subperm.refl _, ?_⟩
  intro v hv
  obtain ⟨f, hf, rfl⟩ := List.mem_map.mp hv
  obtain ⟨r, hr, rfl⟩ := List.mem_map.mp hf
  exact ⟨r, List.mem_of_mem_filter hr, rfl⟩

/-- After a frame that was cut, a message can be sent in full and not be received. -/
theorem not_faithful_after_cut {l : Link} (h : Whole l) {f : Frame} {cut left : Bytes} (hcut : cut ≠ []) (hleft : left ≠ [])
    (hf : cut ++ left = f.encode) {x : UInt8} (hx : x ≠ 0) (hq : x ≠ magicByte) (hhead : f.exchange.bytes.head? ≠ some x) :
    ¬ Faithful ⟨l.stream ++ cut ++ (tagged x hx).encode, l.log ++ [(f, 0)] ++ [(tagged x hx, 1)]⟩ := by
  intro hfaith
  have hall : ∀ j : Nat, 2 ^ 32 ≤ (fun _ => 2 ^ 32 : Nat → Nat) j := fun _ => Nat.le_refl _
  have hahead := inletOf_ahead (l.stream ++ cut ++ (tagged x hx).encode) fun _ => 2 ^ 32
  have hn : (l.log ++ [(f, 0)] ++ [(tagged x hx, 1)]).length ≤ (sentOn l).length + (l.log.length + 2) := by
    simp only [List.length_append, List.length_singleton]
    omega
  have hsent : sentOn ⟨l.stream ++ cut ++ (tagged x hx).encode, l.log ++ [(f, 0)] ++ [(tagged x hx, 1)]⟩ =
      sentOn l ++ [tagged x hx] := by simp [sentOn]
  obtain ⟨hsub, -⟩ := hfaith 3 _ 0 0 _ (by decide) hahead hall _ hn
  have hcount := hsub.count_le (tagged x hx).fields
  rw [List.append_assoc, h] at hahead
  have hgot := peer_receives (by decide : (0 : Int) ≤ 3) hahead hall (l.log.length + 2)
  rw [← h, ← List.append_assoc] at hgot
  rw [hsent, hgot, List.map_append, List.count_append, List.count_append, List.map_singleton, List.count_singleton_self,
    List.count_eq_zero_of_not_mem (cut_frame_swallows hcut hleft hf hx hq hhead _)] at hcount
  omega

theorem returns_when_complete {c : Connection} (l : Link) {e : SendCall} (hloud : ¬ Mute c e) (hall : ∀ k, e.outcome k = .all) :
    (e.result c l).map (·.1) = some 1 := by
  have hst : ¬ c.status ≠ .connected := fun h => hloud (Or.inl h)
  have hfd : 0 ≤ c.socketFd := by
    by_contra h
    exact hloud (Or.inr (Or.inl (by omega)))
  obtain ⟨o', e', -⟩ := send_writes_the_frame hfd e.message (o := ⟨l.stream, e.outcome, 0⟩) hall
  rw [SendCall.result, connectionSend, if_neg hst, e']
  rfl

/-- After a call that failed, the messages sent on the connection are received, and no
    others, exactly when the call wrote nothing. -/
theorem resynced_iff {c : Connection} {before : List SendCall}
    (hbefore : Run.Along (linkStep c) (Clean c) freshLink before) {m1 : SendCall}
    (hfail : (m1.result c (Run.run (linkStep c) freshLink before)).map (·.1) = some 0) :
    (∀ after, Run.Along (linkStep c) (Clean c) (Run.run (linkStep c) freshLink (before ++ [m1])) after →
        Faithful (Run.run (linkStep c) freshLink (before ++ m1 :: after))) ↔
      Mute c m1 := by
  have hwhole : Whole (Run.run (linkStep c) freshLink before) := Run.along_inv whole_step rfl hbefore
  have hone : Run.run (linkStep c) freshLink (before ++ [m1]) = linkStep c (Run.run (linkStep c) freshLink before) m1 := by
    rw [Run.run_append]
    rfl
  have hafter : ∀ after, Run.run (linkStep c) freshLink (before ++ m1 :: after) =
      Run.run (linkStep c) (linkStep c (Run.run (linkStep c) freshLink before) m1) after := by
    intro after
    rw [Run.run_append]
    rfl
  rw [hone]
  generalize Run.run (linkStep c) freshLink before = l at *
  constructor
  · intro h
    by_contra hloud
    rcases linkStep_cases c l m1 with ⟨hm, -⟩ | ⟨-, hres, -⟩ | ⟨-, -, cut, left, hcut, hleft, hf, hl⟩
    · exact hloud hm
    · rw [hfail] at hres
      cases hres
    · obtain ⟨x, hx, hq, hhead⟩ : ∃ x, x ≠ 0 ∧ x ≠ magicByte ∧ m1.message.exchange.bytes.head? ≠ some x := by
        by_cases hhead : m1.message.exchange.bytes.head? = some 1
        · exact ⟨2, by decide, by decide, by rw [hhead]; decide⟩
        · exact ⟨1, by decide, by decide, hhead⟩
      have hloud2 : ¬ Mute c ⟨tagged x hx, fun _ => .all⟩ := by
        intro hm
        rcases hm with hm | hm | hm | hm
        · exact hloud (Or.inl hm)
        · exact hloud (Or.inr (Or.inl hm))
        · cases hm
        · cases hm
      have hres2 := returns_when_complete (linkStep c l m1) hloud2 fun _ => rfl
      have hclean : Run.Along (linkStep c) (Clean c) (linkStep c l m1) [⟨tagged x hx, fun _ => .all⟩] :=
        ⟨Or.inl hres2, trivial⟩
      have hfaith := h _ hclean
      rw [hafter] at hfaith
      rcases linkStep_cases c (linkStep c l m1) ⟨tagged x hx, fun _ => .all⟩ with ⟨hm, -⟩ | ⟨-, -, hl2⟩ | ⟨-, hzero, -⟩
      · exact hloud2 hm
      · rw [Run.run_cons, Run.run_nil, hl2, hl] at hfaith
        exact not_faithful_after_cut hwhole hcut hleft hf hx hq hhead hfaith
      · rw [hres2] at hzero
        cases hzero
  · intro hm after hclean
    rw [hafter]
    exact faithful_of_whole (Run.along_inv whole_step (whole_step l m1 hwhole (Or.inr hm)) hclean)

def aConnection : Connection := ⟨3, .connected, 1, true, false⟩

/-- The body of two bytes is cut after the first. -/
def cutCall : SendCall := ⟨twoBytes, fun k => if k = 6 then .short 1 else .all⟩

/-- The reader takes the second byte of the body, and the properties, from the next frame. -/
theorem a_cut_frame_swallows_the_next : (cutCall.result aConnection freshLink).map (·.1) = some 0 ∧
    (SendCall.result ⟨nothing, fun _ => .all⟩ aConnection (linkStep aConnection freshLink cutCall)).map (·.1) = some 1 ∧
    ¬ Faithful (Run.run (linkStep aConnection) freshLink [cutCall, ⟨nothing, fun _ => .all⟩]) := by
  refine ⟨by decide +kernel, by decide +kernel, ?_⟩
  intro h
  have hlog : (Run.run (linkStep aConnection) freshLink [cutCall, ⟨nothing, fun _ => .all⟩]).log.length ≤ 2 := by
    decide +kernel
  obtain ⟨hsub, -⟩ := h 3 (fun _ => 2 ^ 32) 0 0 _ (by decide) (inletOf_ahead _ _) (fun _ => Nat.le_refl _) 2 hlog
  have hlost : nothing.fields ∉ (attempts (receiveMessageData 3) 2
      (inletOf (Run.run (linkStep aConnection) freshLink [cutCall, ⟨nothing, fun _ => .all⟩]).stream fun _ => 2 ^ 32)).1.map
        (·.toFields) := by
    decide +kernel
  exact hlost (hsub.subset (by decide +kernel))

/-- The first call fails before it has written anything. -/
theorem resynced_when_nothing_is_written :
    Faithful (Run.run (linkStep aConnection) freshLink [⟨twoBytes, fun _ => .error⟩, ⟨nothing, fun _ => .all⟩]) := by
  have hfail : (SendCall.result ⟨twoBytes, fun _ => .error⟩ aConnection (Run.run (linkStep aConnection) freshLink [])).map (·.1) =
      some 0 := by
    decide +kernel
  have hsent : (SendCall.result ⟨nothing, fun _ => .all⟩ aConnection
      (Run.run (linkStep aConnection) freshLink ([] ++ [⟨twoBytes, fun _ => .error⟩]))).map (·.1) = some 1 := by
    decide +kernel
  exact (@resynced_iff aConnection [] trivial _ hfail).mpr (Or.inr (Or.inr (Or.inl rfl))) [⟨nothing, fun _ => .all⟩]
    ⟨Or.inl hsent, trivial⟩

end RabbitMQ.Core
