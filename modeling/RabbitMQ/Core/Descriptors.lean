/-
  RabbitMQ.Core.Descriptors — calls of `connection_send`, `connection_connect` and
  `connection_disconnect` on the connections of one process, which share its descriptors.

  `connection_send` copies the descriptor number under the mutex and uses it after, in up to
  ten calls of `send`. The system may give a number that was closed to the next socket, of
  any connection. So a frame can end on another connection's socket
  (`a_reused_number_gets_the_rest`). It cannot as long as no new socket gets a number that a
  call under way still sends to, and no call copies one that is another socket's already
  (`sends_reach_own_iff`).
-/

import RabbitMQ.Core.Framing
import RabbitMQ.Core.Sessions
import RabbitMQ.Lib.Names

namespace RabbitMQ.Core

open Lib

/-! ## Steps -/

/-- The connection that opened it, and when. -/
structure Socket where
  conn : Nat
  opened : Int
  deriving DecidableEq, Repr

/-- `own` is the connection's socket when its status was checked, `fd` the number copied. -/
inductive SendPlace where
  | idle
  | sending (own : Socket) (fd : Int) (left : List Bytes)
  | returned (val : Nat)
  deriving DecidableEq, Repr

/-- Bytes of a call whose connection had `own`, and the socket they went to. -/
structure Write where
  own : Socket
  went : Socket
  bytes : Bytes
  deriving DecidableEq, Repr

/-- `number` is the number each socket was opened under, `table` what each number refers to
    now. The `socketFd` of a connection says which of its sockets it holds. -/
structure Descriptors where
  conns : Nat → Sessions
  number : Socket → Int
  table : Int → Option Socket
  calls : Nat → SendPlace
  writes : List Write

def Descriptors.sendGo (d : Descriptors) (j : Nat) (p : SendPlace) : Descriptors :=
  { d with calls := Function.update d.calls j p }

/-- Call `j`, of `connection_send` on connection `c`, up to its first `send`. -/
def sendCalled (d : Descriptors) (j c : Nat) (m : Fields) : Descriptors :=
  match d.calls j with
  | .idle =>
    let conn := (d.conns c).conn
    if conn.status ≠ .connected then d.sendGo j (.returned 0)
    else if conn.socketFd < 0 then d.sendGo j (.returned 0)
    else
      match sends m with
      | none => d
      | some bufs => d.sendGo j (.sending ⟨c, conn.socketFd⟩ (d.number ⟨c, conn.socketFd⟩) bufs)
  | _ => d

/-- The next `send` of call `j`. A number that refers to nothing makes it fail (EBADF). -/
def sendTakes (d : Descriptors) (j : Nat) (outcome : SendOutcome) : Descriptors :=
  match d.calls j with
  | .sending _ _ [] => d.sendGo j (.returned 1)
  | .sending own fd (buf :: left) =>
    match d.table fd with
    | none => d.sendGo j (.returned 0)
    | some socket =>
      let r := send buf ⟨[], fun _ => outcome, 0⟩
      { d.sendGo j (if r.1 = some buf.length then .sending own fd left else .returned 0) with
        writes := d.writes ++ [⟨own, socket, r.2.stream⟩] }
  | _ => d

/-- A step of a connect, a disconnect or a receiver of connection `c`. The number `fd` is what
    `socket` returns, if it is called: one that is free. What is closed is the number. -/
def sessionMoves (d : Descriptors) (c : Nat) (e : SessionEvent) (fd : Int) : Descriptors :=
  let s := d.conns c
  let s' := sessionStep s e
  let conns := Function.update d.conns c s'
  if s'.opened ≠ s.opened then
    if fd < 0 ∨ (d.table fd).isSome then d
    else
      { d with conns, number := Function.update d.number ⟨c, s.opened⟩ fd,
               table := Function.update d.table fd (some ⟨c, s.opened⟩) }
  else if s'.closed ≠ s.closed then
    { d with conns, table := Function.update d.table (d.number ⟨c, s.conn.socketFd⟩) none }
  else { d with conns }

inductive DescriptorEvent where
  | session (c : Nat) (e : SessionEvent) (fd : Int)
  | send (j c : Nat) (m : Fields)
  | takes (j : Nat) (outcome : SendOutcome)

def descriptorStep (d : Descriptors) : DescriptorEvent → Descriptors
  | .session c e fd => sessionMoves d c e fd
  | .send j c m => sendCalled d j c m
  | .takes j outcome => sendTakes d j outcome

def newDescriptors : Descriptors where
  conns _ := newSessions
  number _ := -1
  table _ := none
  calls _ := .idle
  writes := []

namespace Descriptors

/-! ## One call by itself -/

def progressOf : SendPlace → Progress
  | .idle => .called
  | .sending own _ left => .sending own.opened left
  | .returned val => .returned val

variable {d : Descriptors} {j c : Nat}

theorem sendCalled_sendStep {message : Nat → Fields} {s : Sending} (hconn : s.conn = (d.conns c).conn)
    (hidle : d.calls j = .idle) (hs : s.progress j = .called) :
    progressOf ((sendCalled d j c (message j)).calls j) = (sendStep message s j).progress j := by
  unfold sendCalled sendStep
  rw [hidle, hs, hconn]
  dsimp only
  by_cases hstatus : (d.conns c).conn.status ≠ .connected
  · simp [hstatus, sendGo, progressOf]
  · by_cases hfd : (d.conns c).conn.socketFd < 0
    · simp [hstatus, hfd, sendGo, progressOf]
    · cases hm : sends (message j) with
      | none => simp [hstatus, hfd, hidle, hs, progressOf]
      | some bufs => simp [hstatus, hfd, sendGo, progressOf]

/-- While its number refers to a socket, a call takes the steps of `sendStep`, and writes what
    that writes. -/
theorem sendTakes_sendStep {message : Nat → Fields} {s : Sending} {own socket : Socket} {fd : Int} {left : List Bytes}
    (hd : d.calls j = .sending own fd left) (hs : s.progress j = .sending own.opened left) (htable : d.table fd = some socket) :
    let outcome := s.outlet.outcome s.outlet.calls
    progressOf ((sendTakes d j outcome).calls j) = (sendStep message s j).progress j ∧
      ∃ bytes, (sendStep message s j).outlet.stream = s.outlet.stream ++ bytes ∧
        (sendTakes d j outcome).writes = d.writes ++ (if left = [] then [] else [⟨own, socket, bytes⟩]) := by
  unfold sendTakes sendStep
  rw [hd, hs]
  cases left with
  | nil => exact ⟨by simp [sendGo, progressOf], [], by simp [sendGo]⟩
  | cons buf left =>
    simp only [htable]
    cases ho : s.outlet.outcome s.outlet.calls with
    | all => exact ⟨by simp [send, ho, sendGo, progressOf], buf, by simp [send, ho], by simp [send]⟩
    | error => exact ⟨by simp [send, ho, sendGo, progressOf], [], by simp [send, ho], by simp [send]⟩
    | short n =>
      refine ⟨?_, buf.take n, ?_, ?_⟩
      · by_cases hn : buf.length ≤ n <;> simp [send, ho, sendGo, progressOf, hn]
      · by_cases hn : buf.length ≤ n <;> simp [send, ho, hn]
      · simp [send]

/-! ## Where bytes go -/

/-- Every byte went to the socket its connection had when the call checked the status. -/
def RightlySent (d : Descriptors) : Prop := ∀ w ∈ d.writes, w.bytes ≠ [] → w.went = w.own

/-- `socket` returns no number that a call under way has yet to send to, and a call copies no
    number that is another socket's. -/
def NumberKept (d : Descriptors) : DescriptorEvent → Prop
  | .session c e fd =>
    (sessionStep (d.conns c) e).opened ≠ (d.conns c).opened → 0 ≤ fd → d.table fd = none →
      ∀ j own n left, d.calls j = .sending own n left → left ≠ [] → n ≠ fd
  | .send j c m =>
    d.calls j = .idle → (d.conns c).conn.status = .connected → 0 ≤ (d.conns c).conn.socketFd → (sends m).isSome = true →
      Names.Means d.table (d.number ⟨c, (d.conns c).conn.socketFd⟩) ⟨c, (d.conns c).conn.socketFd⟩
  | .takes _ _ => True

/-- All bytes so far are right, and each call under way has a number that is its own socket's
    or nobody's. -/
structure Aligned (d : Descriptors) : Prop where
  right : d.RightlySent
  aimed : ∀ j own fd left, d.calls j = .sending own fd left → left ≠ [] → Names.Means d.table fd own

/-- Sockets were opened before now, and every frame ends in a byte. -/
structure Fresh (d : Descriptors) : Prop where
  sockets : ∀ c, (d.conns c).conn.socketFd < (d.conns c).opened
  past : ∀ j own fd left, d.calls j = .sending own fd left → own.opened < (d.conns own.conn).opened
  ends : ∀ j own fd left last, d.calls j = .sending own fd left → left.getLast? = some last → last ≠ []

/-! ### What keeps it -/

/-- The connection has the socket it had, or none. -/
def SocketKept (s s' : Sessions) : Prop :=
  s'.opened = s.opened ∧ (s'.conn.socketFd = s.conn.socketFd ∨ s'.conn.socketFd = -1)

/-- It has the next one to be opened. -/
def SocketNew (s s' : Sessions) : Prop := s'.opened = s.opened + 1 ∧ s'.conn.socketFd = s.opened

theorem connectBegins_socket (s : Sessions) (t : Nat) : SocketKept s (connectBegins s t) := by
  unfold connectBegins
  split
  · split
    · exact ⟨rfl, Or.inl rfl⟩
    · exact ⟨rfl, Or.inl rfl⟩
  · exact ⟨rfl, Or.inl rfl⟩

theorem disconnectCalled_socket (s : Sessions) (t : Nat) : SocketKept s (disconnectCalled s t) := by
  unfold disconnectCalled
  split
  · split
    · exact ⟨rfl, Or.inl rfl⟩
    · exact ⟨rfl, Or.inl rfl⟩
  · exact ⟨rfl, Or.inl rfl⟩

theorem callStep_socket (s : Sessions) (t : Nat) (ok : Bool) : SocketKept s (callStep s t ok) ∨ SocketNew s (callStep s t ok) := by
  unfold callStep
  cases s.calls t with
  | opening =>
    cases ok with
    | true => exact Or.inr ⟨rfl, rfl⟩
    | false => exact Or.inl ⟨rfl, Or.inr rfl⟩
  | failing exit =>
    cases exit with
    | noSocket => exact Or.inl ⟨rfl, Or.inl rfl⟩
    | noPeer | noThread => exact Or.inl ⟨rfl, Or.inr rfl⟩
  | finishing session => exact Or.inl ⟨rfl, Or.inr rfl⟩
  | joining session =>
    refine Or.inl ?_
    dsimp only
    split
    · exact ⟨rfl, Or.inl rfl⟩
    · split
      · exact ⟨rfl, Or.inl rfl⟩
      · exact ⟨rfl, Or.inl rfl⟩
  | opened stage | creating session =>
    cases ok with
    | true => exact Or.inl ⟨rfl, Or.inl rfl⟩
    | false => exact Or.inl ⟨rfl, Or.inl rfl⟩
  | idle | ready | announcing | closing session | notifying session => exact Or.inl ⟨rfl, Or.inl rfl⟩

theorem receiverThreadStep_socket (s : Sessions) (k : Nat) (result : ReceiveResult) :
    SocketKept s (receiverThreadStep s k result) := by
  unfold receiverThreadStep
  cases (s.receivers k).place with
  | looking =>
    dsimp only
    split
    · exact ⟨rfl, Or.inl rfl⟩
    · exact ⟨rfl, Or.inl rfl⟩
  | receiving => cases result <;> exact ⟨rfl, Or.inl rfl⟩
  | losing | notifying | exited => exact ⟨rfl, Or.inl rfl⟩

theorem sessionStep_socket (s : Sessions) (e : SessionEvent) : SocketKept s (sessionStep s e) ∨ SocketNew s (sessionStep s e) := by
  cases e with
  | connect t => exact Or.inl (connectBegins_socket s t)
  | disconnect t => exact Or.inl (disconnectCalled_socket s t)
  | step t ok => exact callStep_socket s t ok
  | receive k result => exact Or.inl (receiverThreadStep_socket s k result)
  | setOnDisconnect set => exact Or.inl ⟨rfl, Or.inl rfl⟩

theorem sends_getLast {m : Fields} {bufs : List Bytes} (h : sends m = some bufs) : bufs.getLast? = some [m.persistent] := by
  unfold sends at h
  split at h
  · cases h
    by_cases hbody : 0 < m.bodySize.toUInt32 <;> simp [hbody]
  · cases h

theorem fresh_sendGo {p : SendPlace} (h : Fresh d)
    (hpast : ∀ own fd left, p = .sending own fd left → own.opened < (d.conns own.conn).opened)
    (hends : ∀ own fd left last, p = .sending own fd left → left.getLast? = some last → last ≠ []) : Fresh (d.sendGo j p) where
  sockets := h.sockets
  past i own fd left hi := by
    by_cases hij : i = j
    · subst hij
      exact hpast own fd left (by simpa [sendGo] using hi)
    · exact h.past i own fd left (by simpa [sendGo, hij] using hi)
  ends i own fd left last hi hlast := by
    by_cases hij : i = j
    · subst hij
      exact hends own fd left last (by simpa [sendGo] using hi) hlast
    · exact h.ends i own fd left last (by simpa [sendGo, hij] using hi) hlast

theorem fresh_sessionMoves (h : Fresh d) (e : SessionEvent) (fd : Int) : Fresh (sessionMoves d c e fd) := by
  have hconns : ∀ d' : Descriptors, d'.conns = Function.update d.conns c (sessionStep (d.conns c) e) → d'.calls = d.calls → Fresh d' := by
    intro d' hd hcalls
    have hgrows : (d.conns c).opened ≤ (sessionStep (d.conns c) e).opened ∧
        (sessionStep (d.conns c) e).conn.socketFd < (sessionStep (d.conns c) e).opened := by
      have hold := h.sockets c
      rcases sessionStep_socket (d.conns c) e with ⟨ho, hs⟩ | ⟨ho, hs⟩ <;> omega
    refine ⟨fun i => ?_, fun i own n left hi => ?_, fun i own n left last hi => h.ends i own n left last (hcalls ▸ hi)⟩
    · rw [hd]
      by_cases hic : i = c
      · subst hic
        simpa using hgrows.2
      · simpa [hic] using h.sockets i
    · have hpast := h.past i own n left (hcalls ▸ hi)
      rw [hd]
      by_cases hic : own.conn = c
      · rw [hic] at hpast ⊢
        rw [Function.update_self]
        omega
      · simpa [hic] using hpast
  unfold sessionMoves
  dsimp only
  split
  · split
    · exact h
    · exact hconns _ rfl rfl
  · split
    · exact hconns _ rfl rfl
    · exact hconns _ rfl rfl

theorem fresh_sendCalled (h : Fresh d) (m : Fields) : Fresh (sendCalled d j c m) := by
  unfold sendCalled
  split
  · dsimp only
    split
    · exact fresh_sendGo h (by simp) (by simp)
    · split
      · exact fresh_sendGo h (by simp) (by simp)
      · cases hm : sends m with
        | none => exact h
        | some bufs =>
          refine fresh_sendGo h ?_ ?_
          · rintro own fd left ⟨⟩
            exact h.sockets c
          · rintro own fd left last ⟨⟩ hlast
            rw [sends_getLast hm] at hlast
            cases hlast
            exact List.cons_ne_nil _ _
  · exact h

theorem fresh_sendTakes (h : Fresh d) (outcome : SendOutcome) : Fresh (sendTakes d j outcome) := by
  unfold sendTakes
  split
  · exact fresh_sendGo h (by simp) (by simp)
  · rename_i own fd buf left hj
    split
    · exact fresh_sendGo h (by simp) (by simp)
    · have hnext : ∀ p, p = .sending own fd left ∨ p = .returned 0 → Fresh (d.sendGo j p) := by
        rintro p (rfl | rfl)
        · refine fresh_sendGo h ?_ ?_
          · rintro own' fd' left' ⟨⟩
            exact h.past j own fd _ hj
          · rintro own' fd' left' last ⟨⟩ hlast
            refine h.ends j own fd (buf :: left) last hj ?_
            rw [List.getLast?_cons, hlast]
            rfl
        · exact fresh_sendGo h (by simp) (by simp)
      have hgo := hnext (if (send buf ⟨[], fun _ => outcome, 0⟩).1 = some buf.length then .sending own fd left else .returned 0)
        (by split <;> simp)
      exact ⟨hgo.sockets, hgo.past, hgo.ends⟩
  · exact h

theorem step_fresh (h : Fresh d) (e : DescriptorEvent) : Fresh (descriptorStep d e) := by
  cases e with
  | session c e fd => exact fresh_sessionMoves h e fd
  | send j c m => exact fresh_sendCalled h m
  | takes j outcome => exact fresh_sendTakes h outcome

/-! ### What the condition says -/

theorem aligned_session (hf : Fresh d) (h : Aligned d) (e : SessionEvent) (fd : Int) :
    NumberKept d (.session c e fd) ↔ Aligned (sessionMoves d c e fd) := by
  unfold sessionMoves NumberKept
  dsimp only
  by_cases hopens : (sessionStep (d.conns c) e).opened ≠ (d.conns c).opened
  · rw [if_pos hopens]
    by_cases hgives : fd < 0 ∨ (d.table fd).isSome
    · -- no number that `socket` can return
      rw [if_pos hgives]
      refine iff_of_true (fun _ hfd hfree => ?_) h
      rw [hfree] at hgives
      simp at hgives
      omega
    · rw [if_neg hgives]
      have hfd : 0 ≤ fd := by omega
      have hfree : d.table fd = none := by simpa using fun hs => hgives (Or.inr hs)
      -- the new socket is nobody's own
      have hnew : ∀ j own n left, d.calls j = .sending own n left → (⟨c, (d.conns c).opened⟩ : Socket) ≠ own := by
        rintro j own n left hj rfl
        exact absurd (hf.past j _ n left hj) (lt_irrefl _)
      constructor
      · intro hkept
        refine ⟨h.right, fun j own n left hj hleft => ?_⟩
        rw [Names.means_give_iff, if_neg (hkept hopens hfd hfree j own n left hj hleft)]
        exact h.aimed j own n left hj hleft
      · intro hnext _ _ _ j own n left hj hleft he
        have hmeans := hnext.aimed j own n left hj hleft
        rw [Names.means_give_iff, if_pos he] at hmeans
        exact hnew j own n left hj hmeans
  · rw [if_neg hopens]
    refine iff_of_true (fun ho => absurd ho hopens) ?_
    split
    · exact ⟨h.right, fun j own n left hj hleft => Names.means_release (h.aimed j own n left hj hleft)⟩
    · exact ⟨h.right, h.aimed⟩

theorem aligned_sendGo {p : SendPlace} (h : Aligned d) :
    Aligned (d.sendGo j p) ↔ ∀ own fd left, p = .sending own fd left → left ≠ [] → Names.Means d.table fd own := by
  constructor
  · rintro hgo own fd left rfl hleft
    exact hgo.aimed j own fd left (Function.update_self j _ d.calls) hleft
  · intro hp
    refine ⟨h.right, fun i own fd left hi hleft => ?_⟩
    by_cases hij : i = j
    · subst hij
      exact hp own fd left (by simpa [sendGo] using hi) hleft
    · exact h.aimed i own fd left (by simpa [sendGo, hij] using hi) hleft

theorem aligned_send (h : Aligned d) (m : Fields) : NumberKept d (.send j c m) ↔ Aligned (sendCalled d j c m) := by
  unfold sendCalled NumberKept
  cases hj : d.calls j with
  | sending own fd left => exact iff_of_true (fun hidle => absurd (hj.symm.trans hidle) SendPlace.noConfusion) h
  | returned val => exact iff_of_true (fun hidle => absurd (hj.symm.trans hidle) SendPlace.noConfusion) h
  | idle =>
    dsimp only
    by_cases hstatus : (d.conns c).conn.status = .connected
    · by_cases hfd : (d.conns c).conn.socketFd < 0
      · simp only [hstatus, hfd, ne_eq, not_true_eq_false, if_false, if_true]
        refine iff_of_true (fun _ _ hfd' => by omega) ((aligned_sendGo h).mpr (by simp))
      · simp only [hstatus, hfd, ne_eq, not_true_eq_false, if_false]
        cases hm : sends m with
        | none => exact iff_of_true (fun _ _ _ hs => nomatch hs) h
        | some bufs =>
          have hbufs : bufs ≠ [] := by
            rintro rfl
            exact nomatch sends_getLast hm
          dsimp only
          rw [aligned_sendGo h]
          constructor
          · rintro hkept own fd left ⟨⟩ -
            exact hkept hj trivial (by omega) rfl
          · intro hp _ _ _ _
            exact hp _ _ _ rfl hbufs
    · simp only [hstatus, ne_eq, not_false_eq_true, if_true]
      refine iff_of_true (fun _ hs => absurd hs (by simp)) ((aligned_sendGo h).mpr (by simp))

theorem aligned_takes (h : Aligned d) (outcome : SendOutcome) : Aligned (sendTakes d j outcome) := by
  unfold sendTakes
  split
  · exact (aligned_sendGo h).mpr (by simp)
  · rename_i own fd buf left hj
    have hmeans := h.aimed j own fd (buf :: left) hj (List.cons_ne_nil buf left)
    split
    · exact (aligned_sendGo h).mpr (by simp)
    · rename_i socket hsocket
      have hgo : Aligned (d.sendGo j
          (if (send buf ⟨[], fun _ => outcome, 0⟩).1 = some buf.length then .sending own fd left else .returned 0)) := by
        rw [aligned_sendGo h]
        intro own' fd' left' hp _
        split at hp
        · cases hp
          exact hmeans
        · cases hp
      refine ⟨fun w hw hbytes => ?_, hgo.aimed⟩
      rcases List.mem_append.mp hw with hw | hw
      · exact h.right w hw hbytes
      · rw [List.mem_singleton.mp hw]
        exact hmeans socket hsocket
  · exact h

theorem aligned_iff (hf : Fresh d) (h : Aligned d) (e : DescriptorEvent) : NumberKept d e ↔ Aligned (descriptorStep d e) := by
  cases e with
  | session c e fd => exact aligned_session hf h e fd
  | send j c m => exact aligned_send h m
  | takes j outcome => exact iff_of_true trivial (aligned_takes h outcome)

/-! ### Calls that go on -/

/-- Steps of calls under way. -/
def goingOn (ss : List (Nat × SendOutcome)) : List DescriptorEvent := ss.map fun x => .takes x.1 x.2

/-- A call whose number is another socket's can write a byte there. -/
theorem misaimed_writes {own socket : Socket} {fd : Int} {left : List Bytes} (hj : d.calls j = .sending own fd left)
    (hleft : left ≠ []) (hlast : ∀ last, left.getLast? = some last → last ≠ []) (htable : d.table fd = some socket)
    (hother : socket ≠ own) : ∃ ss, ¬ RightlySent (Run.run descriptorStep d (goingOn ss)) := by
  induction left generalizing d with
  | nil => exact absurd rfl hleft
  | cons buf left ih =>
    have hstep : sendTakes d j .all = { d.sendGo j (.sending own fd left) with writes := d.writes ++ [⟨own, socket, buf⟩] } := by
      simp [sendTakes, hj, htable, send]
    by_cases hbuf : buf = []
    · -- an empty name writes nothing: the next buffer
      have hmore : left ≠ [] := by
        rintro rfl
        exact hlast buf rfl hbuf
      have hcall : (sendTakes d j .all).calls j = .sending own fd left := by
        rw [hstep]
        exact Function.update_self j _ d.calls
      have htable' : (sendTakes d j .all).table fd = some socket := by
        rw [hstep]
        exact htable
      have hlast' : ∀ last, left.getLast? = some last → last ≠ [] := by
        intro last hl
        refine hlast last ?_
        rw [List.getLast?_cons, hl]
        rfl
      obtain ⟨ss, hss⟩ := ih hcall hmore hlast' htable'
      exact ⟨(j, .all) :: ss, hss⟩
    · refine ⟨[(j, .all)], fun hright => hother (hright ⟨own, socket, buf⟩ ?_ hbuf)⟩
      show _ ∈ (sendTakes d j .all).writes
      rw [hstep]
      exact List.mem_append_right _ (List.mem_singleton.mpr rfl)

theorem aligned_goes_on (h : Aligned d) (ss : List (Nat × SendOutcome)) : Aligned (Run.run descriptorStep d (goingOn ss)) := by
  induction ss generalizing d with
  | nil => exact h
  | cons x ss ih => exact ih (aligned_takes h x.2)

/-- What is aligned stays right however the calls under way go on, and nothing else does. -/
theorem aligned_iff_goes_on (hf : Fresh d) : Aligned d ↔ ∀ ss, RightlySent (Run.run descriptorStep d (goingOn ss)) := by
  constructor
  · intro h ss
    exact (aligned_goes_on h ss).right
  · intro h
    refine ⟨h [], fun j own fd left hj hleft socket hsocket => ?_⟩
    by_contra hother
    obtain ⟨ss, hss⟩ := misaimed_writes hj hleft (fun last hl => hf.ends j own fd left last hj hl) hsocket hother
    exact hss (h ss)

theorem newDescriptors_fresh : Fresh newDescriptors :=
  ⟨by simp [newDescriptors, newSessions], by simp [newDescriptors], by simp [newDescriptors]⟩

theorem newDescriptors_aligned : Aligned newDescriptors := ⟨by simp [RightlySent, newDescriptors], by simp [newDescriptors]⟩

/-- In every run: every byte goes to its own socket in every state, and however the calls under
    way go on from it, exactly if every step of the run keeps the numbers. -/
theorem sends_reach_own_iff (es : List DescriptorEvent) :
    (∀ as, as <+: es → ∀ ss, RightlySent (Run.run descriptorStep newDescriptors (as ++ goingOn ss))) ↔
      Run.Along descriptorStep NumberKept newDescriptors es := by
  have hfreshStep : ∀ d e, Fresh d → Fresh (descriptorStep d e) := fun _ e h => step_fresh h e
  have halignedStep : ∀ d e, Fresh d → Aligned d → (NumberKept d e ↔ Aligned (descriptorStep d e)) := fun _ e hf h => aligned_iff hf h e
  rw [← Run.along_iff hfreshStep halignedStep newDescriptors_fresh newDescriptors_aligned]
  refine forall₂_congr fun as _ => ?_
  have hfresh : Fresh (Run.run descriptorStep newDescriptors as) := Run.run_inv hfreshStep as newDescriptors_fresh
  rw [aligned_iff_goes_on hfresh]
  simp only [Run.run_append]

/-- Connection 0 is connected under number 5 and a call on it has sent the magic when it is
    disconnected and closed; connection 1 connects, and gets the number 5. -/
def reused : List DescriptorEvent :=
  Sessions.connected.map (.session 0 · 5) ++
    [.send 0 0 twoBytes.fields, .takes 0 .all, .session 0 (.disconnect 0) 5, .session 0 (.receive 0 .message) 5] ++
    List.replicate 4 (.session 0 (.step 0 true) 5) ++ Sessions.connected.map (.session 1 · 5) ++ [.takes 0 .all]

theorem a_reused_number_gets_the_rest :
    (Run.run descriptorStep newDescriptors reused).writes =
        [⟨⟨0, 0⟩, ⟨0, 0⟩, u32 MESSAGE_MAGIC⟩, ⟨⟨0, 0⟩, ⟨1, 0⟩, u32 1⟩] ∧
      ¬ ∀ es, RightlySent (Run.run descriptorStep newDescriptors es) := by
  have hwrites : (Run.run descriptorStep newDescriptors reused).writes =
      [⟨⟨0, 0⟩, ⟨0, 0⟩, u32 MESSAGE_MAGIC⟩, ⟨⟨0, 0⟩, ⟨1, 0⟩, u32 1⟩] := by decide +kernel
  refine ⟨hwrites, fun h => ?_⟩
  have hright := h reused ⟨⟨0, 0⟩, ⟨1, 0⟩, u32 1⟩ (by rw [hwrites]; exact List.mem_cons_of_mem _ (List.mem_singleton.mpr rfl))
    (by decide)
  exact absurd hright (by decide)

end Descriptors

end RabbitMQ.Core
