/-
  RabbitMQ.Core.Sessions — `connection_connect`, `connection_disconnect` and the receiver
  threads, step by step.

  A step is a critical section under `conn->mutex`, a system call, or a callback. Any number
  of threads call connect and disconnect; each connect that gets as far as CONNECTED begins
  a session, and its receiver thread is that session's. A socket is known by when it was
  opened. The records say which sockets were closed, which threads joined, and for which
  sessions `on_disconnect` was called, in order.

  The status stays CONNECTED while a disconnect waits for the receiver, so a loss seen in
  that time is reported as well (`a_loss_during_disconnect_is_notified_twice`). A session is
  notified once, and its socket closed once, as long as a disconnect and a loss, or two
  disconnects, do not meet, and none comes between CONNECTED and the receiver's creation
  (`notified_at_most_once`).
-/

import RabbitMQ.Core.Connection
import RabbitMQ.Lib.Lock
import RabbitMQ.Lib.Run

namespace RabbitMQ.Core

open Lib

/-! ## The parties -/

/-- What `connection_connect` does with the socket, in order; each can fail. -/
inductive Stage where
  | resolve
  | connect
  | select
  | soError
  deriving DecidableEq, Repr

/-- What a connect that fails has got to. -/
inductive Exit where
  | noSocket
  | noPeer
  | noThread
  deriving DecidableEq, Repr

/-- The next step of a call. -/
inductive CallPlace where
  | idle
  | opening
  | opened (stage : Stage)
  | ready
  | creating (session : Nat)
  | announcing
  | failing (exit : Exit)
  | joining (session : Nat)
  | closing (session : Nat)
  | finishing (session : Nat)
  | notifying (session : Nat)
  deriving DecidableEq, Repr

inductive ReceiverPlace where
  | looking
  | receiving
  | losing
  | notifying
  | exited
  deriving DecidableEq, Repr

structure ReceiverThread where
  session : Nat
  place : ReceiverPlace
  deriving DecidableEq, Repr

/-- `thread` is `conn->receiver_thread`; `opened`, `made` and `reached` count sockets,
    receiver threads and sessions. -/
structure Sessions where
  conn : Connection
  thread : Option Nat
  calls : Nat → CallPlace
  receivers : Nat → ReceiverThread
  opened : Nat
  made : Nat
  reached : Nat
  closed : List Int
  joined : List Nat
  notified : List Nat

namespace Sessions

/-- Caller `t` is at `p` next. -/
def go (s : Sessions) (t : Nat) (p : CallPlace) : Sessions := { s with calls := Function.update s.calls t p }

def receiverGo (s : Sessions) (k : Nat) (p : ReceiverPlace) : Sessions :=
  { s with receivers := Function.update s.receivers k { s.receivers k with place := p } }

def setConn (s : Sessions) (conn : Connection) : Sessions := { s with conn }

/-- `close(conn->socket_fd)`. -/
def closeSocket (s : Sessions) : Sessions :=
  { s with closed := if s.conn.socketFd < 0 then s.closed else s.closed ++ [s.conn.socketFd] }

/-- `on_disconnect`, for a session. -/
def notify (s : Sessions) (session : Nat) : Sessions :=
  { s with notified := if s.conn.onDisconnect then s.notified ++ [session] else s.notified }

end Sessions

/-! ## Steps -/

def connectBegins (s : Sessions) (t : Nat) : Sessions :=
  match s.calls t with
  | .idle =>
    if s.conn.status = .connected ∨ s.conn.status = .connecting then s
    else (s.setConn { s.conn with status := .connecting }).go t .opening
  | _ => s

def disconnectCalled (s : Sessions) (t : Nat) : Sessions :=
  match s.calls t with
  | .idle =>
    if s.conn.status ≠ .connected then s
    else (s.setConn { s.conn with running := 0 }).go t (.joining (s.reached - 1))
  | _ => s

def afterStage : Stage → CallPlace
  | .resolve => .opened .connect
  | .connect => .opened .select
  | .select => .opened .soError
  | .soError => .ready

/-- The last critical section of a connect that fails. -/
def afterExit (conn : Connection) : Exit → Connection
  | .noSocket => { conn with status := .failed }
  | .noPeer => { conn with socketFd := -1, status := .failed }
  | .noThread => { conn with socketFd := -1, status := .failed, running := 0 }

/-- The next step of caller `t`; `ok` is what the system call returns. A handle never set is
    waited for in vain. -/
def callStep (s : Sessions) (t : Nat) (ok : Bool) : Sessions :=
  match s.calls t with
  | .idle => s
  | .opening =>
    if ok then { (s.setConn { s.conn with socketFd := s.opened }).go t (.opened .resolve) with opened := s.opened + 1 }
    else (s.setConn { s.conn with socketFd := -1 }).go t (.failing .noSocket)
  | .opened stage => if ok then s.go t (afterStage stage) else s.closeSocket.go t (.failing .noPeer)
  | .ready =>
    { (s.setConn { s.conn with status := .connected, running := 1 }).go t (.creating s.reached) with reached := s.reached + 1 }
  | .creating session =>
    if ok then
      { s.go t .announcing with
        receivers := Function.update s.receivers s.made ⟨session, .looking⟩, thread := some s.made, made := s.made + 1 }
    else s.closeSocket.go t (.failing .noThread)
  | .announcing => s.go t .idle
  | .failing exit => (s.setConn (afterExit s.conn exit)).go t .idle
  | .joining session =>
    match s.thread with
    | none => s
    | some k => if (s.receivers k).place = .exited then { s.go t (.closing session) with joined := s.joined ++ [k] } else s
  | .closing session => s.closeSocket.go t (.finishing session)
  | .finishing session => (s.setConn { s.conn with socketFd := -1, status := .disconnected }).go t (.notifying session)
  | .notifying session => (s.notify session).go t .idle

inductive ReceiveResult where
  | message
  /-- NULL, with an `errno` that says the connection is lost. -/
  | lost
  | failed
  deriving DecidableEq, Repr

/-- The next step of receiver thread `k`. -/
def receiverThreadStep (s : Sessions) (k : Nat) (result : ReceiveResult) : Sessions :=
  match (s.receivers k).place with
  | .looking => if s.conn.running = 0 then s.receiverGo k .exited else s.receiverGo k .receiving
  | .receiving =>
    match result with
    | .message | .failed => s.receiverGo k .looking
    | .lost => s.receiverGo k .losing
  | .losing => (s.setConn { s.conn with running := 0, status := .disconnected }).receiverGo k .notifying
  | .notifying => (s.notify (s.receivers k).session).receiverGo k .exited
  | .exited => s

inductive SessionEvent where
  | connect (t : Nat)
  | disconnect (t : Nat)
  | step (t : Nat) (ok : Bool)
  | receive (k : Nat) (result : ReceiveResult)
  | setOnDisconnect (set : Bool)
  deriving DecidableEq, Repr

def sessionStep (s : Sessions) : SessionEvent → Sessions
  | .connect t => connectBegins s t
  | .disconnect t => disconnectCalled s t
  | .step t ok => callStep s t ok
  | .receive k result => receiverThreadStep s k result
  | .setOnDisconnect set => s.setConn { s.conn with onDisconnect := set }

/-- A connection just created. -/
def newSessions : Sessions where
  conn := ⟨-1, .disconnected, 0, false, false⟩
  thread := none
  calls _ := .idle
  receivers _ := ⟨0, .exited⟩
  opened := 0
  made := 0
  reached := 0
  closed := []
  joined := []
  notified := []

namespace Sessions

/-! ## A turn of the receiver -/

/-- What the receiver's next `receive_message_data` comes to. -/
def resultOf (r : Receiver) : ReceiveResult :=
  match receiveMessageData r.conn.socketFd r.world with
  | (some _, _) => .message
  | (none, world) => if Lost world.errno then .lost else .failed

/-- With nobody between them, the steps from `looking` back to it, or to the end, are one
    `receiverTurn`. -/
theorem steps_of_a_turn (s : Sessions) (k : Nat) (r : Receiver) (hk : (s.receivers k).place = .looking)
    (hexited : r.exited = false) (hconn : r.conn = s.conn) :
    ∃ steps, (fun s => receiverThreadStep s k (resultOf r))^[steps] s =
      { s with
        conn := (receiverTurn r).conn,
        receivers := Function.update s.receivers k
          ⟨(s.receivers k).session, if (receiverTurn r).exited then .exited else .looking⟩,
        notified := s.notified ++ List.replicate ((receiverTurn r).disconnects - r.disconnects) (s.receivers k).session } := by
  obtain ⟨conn, world, exited, delivered, disconnects⟩ := r
  obtain rfl : exited = false := hexited
  obtain rfl : conn = s.conn := hconn
  by_cases hrun : s.conn.running = 0
  · refine ⟨1, ?_⟩
    simp [receiverThreadStep, receiverTurn, receiverGo, hk, hrun]
  · cases hrecv : receiveMessageData s.conn.socketFd world with
    | mk received world' =>
      cases received with
      | some message =>
        refine ⟨2, ?_⟩
        cases hon : s.conn.onMessage <;>
          simp [receiverThreadStep, receiverTurn, receiverGo, resultOf, hk, hrun, hrecv, hon]
      | none =>
        by_cases hlost : Lost world'.errno
        · refine ⟨4, ?_⟩
          cases hon : s.conn.onDisconnect <;>
            simp [receiverThreadStep, receiverTurn, receiverGo, setConn, notify, resultOf, hk, hrun, hrecv, hlost, hon]
        · refine ⟨2, ?_⟩
          simp [receiverThreadStep, receiverTurn, receiverGo, resultOf, hk, hrun, hrecv, hlost]

theorem disconnectCalled_conn (s : Sessions) (t : Nat) (r : Receiver) (ht : s.calls t = .idle) (hconn : r.conn = s.conn) :
    (disconnectCalled s t).conn = (disconnectBegins r).conn := by
  unfold disconnectCalled disconnectBegins
  rw [ht, hconn]
  by_cases hc : s.conn.status = .connected
  · simp only [hc, ne_eq, not_true_eq_false, if_false, if_true]
    rfl
  · simp only [hc, ne_eq, not_false_eq_true, if_true, if_false, hconn]

/-! ## One call under way -/

/-- From its first critical section that goes on to its last. -/
def UnderWay : CallPlace → Prop
  | .opening | .opened _ | .ready | .creating _ | .failing _ | .joining _ | .closing _ | .finishing _ => True
  | .idle | .announcing | .notifying _ => False

def Disconnecting : CallPlace → Prop
  | .joining _ | .closing _ | .finishing _ => True
  | .idle | .opening | .opened _ | .ready | .creating _ | .announcing | .failing _ | .notifying _ => False

/-- CONNECTED already, and without its receiver yet. -/
def Unattended : CallPlace → Prop
  | .creating _ | .failing .noThread => True
  | _ => False

inductive Party where
  | caller (t : Nat)
  | receiver (k : Nat)

/-- A call is to notify, or has yet to, that session `n` is over. -/
def Leaves (n : Nat) (p : CallPlace) : Prop := p = .joining n ∨ p = .closing n ∨ p = .finishing n ∨ p = .notifying n

def Owes (s : Sessions) (n : Nat) : Party → Prop
  | .caller t => Leaves n (s.calls t)
  | .receiver k => s.receivers k = ⟨n, .notifying⟩

/-- Each session over is notified, or owed one notification. -/
structure Debts (s : Sessions) : Prop where
  one : ∀ n x y, s.Owes n x → s.Owes n y → x = y
  unpaid : ∀ n x, s.Owes n x → n ∉ s.notified
  once : s.notified.Nodup
  past : ∀ n, n ∈ s.notified ∨ (∃ x, s.Owes n x) → n < s.reached

structure Sockets (s : Sessions) : Prop where
  once : s.closed.Nodup
  past : ∀ fd ∈ s.closed, fd < s.opened

/-- The socket of the connection is open. -/
structure Usable (s : Sessions) : Prop where
  made : 0 ≤ s.conn.socketFd
  past : s.conn.socketFd < s.opened
  notClosed : s.conn.socketFd ∉ s.closed

/-- Session `n` goes on. -/
structure Current (s : Sessions) (n : Nat) : Prop where
  last : n + 1 = s.reached
  notOwed : ∀ x, ¬ s.Owes n x
  notPaid : n ∉ s.notified

/-- The receiver of session `n` was the last to be made. -/
def Attended (s : Sessions) (n : Nat) : Prop := ∃ k, s.thread = some k ∧ (s.receivers k).session = n

/-- What holds of the connection where the call under way is at a place; `idle`: no call is. -/
def Fits (s : Sessions) : CallPlace → Prop
  | .idle =>
    s.conn.status ≠ .connecting ∧
      (s.conn.status = .connected → s.Usable ∧ ∃ n, s.Current n ∧ s.Attended n)
  | .opening => s.conn.status = .connecting
  | .opened _ | .ready => s.conn.status = .connecting ∧ s.Usable
  | .creating n => s.conn.status = .connected ∧ s.Usable ∧ s.Current n
  | .failing .noThread => s.conn.status = .connected
  | .failing .noSocket | .failing .noPeer => s.conn.status = .connecting
  | .joining _ | .closing _ => s.conn.status = .connected ∧ s.Usable
  | .finishing _ => s.conn.status = .connected
  | .announcing | .notifying _ => False

/-- A receiver that can still find the connection lost. -/
def Alive (s : Sessions) (k : Nat) : Prop := (s.receivers k).place ≠ .notifying ∧ (s.receivers k).place ≠ .exited

/-- It is the last one made, of a session that goes on or that a disconnect waits for. -/
def Serves (s : Sessions) (p : CallPlace) (k : Nat) : Prop :=
  s.thread = some k ∧ ((p = .idle ∧ s.conn.status = .connected) ∨ ∃ n, p = .joining n)

structure Orderly (s : Sessions) (holder : Option Nat) : Prop where
  single : Lock.Excludes UnderWay holder s.calls
  fits : s.Fits (Lock.current .idle holder s.calls)
  alive : ∀ k, s.Alive k → s.Serves (Lock.current .idle holder s.calls) k
  debts : s.Debts
  sockets : s.Sockets

/-- A disconnect gets past its check only when no other is under way and the session has its
    receiver; a loss is taken note of only when no disconnect is under way. -/
def Undisturbed (s : Sessions) : SessionEvent → Prop
  | .disconnect t =>
    s.calls t = .idle → s.conn.status = .connected → ∀ u, ¬ Disconnecting (s.calls u) ∧ ¬ Unattended (s.calls u)
  | .receive k _ => (s.receivers k).place = .losing → ∀ t, ¬ Disconnecting (s.calls t)
  | .connect _ | .step _ _ | .setOnDisconnect _ => True

/-! ## Debts and sockets -/

variable {s s' : Sessions} {holder : Option Nat} {t k n : Nat} {p : CallPlace} {x : Party}

theorem owes_call (h : s'.Owes n x) (hcalls : s'.calls = Function.update s.calls t p) (hreceivers : s'.receivers = s.receivers) :
    (s.Owes n x ∧ x ≠ .caller t) ∨ (x = .caller t ∧ Leaves n p) := by
  cases x with
  | caller u =>
    have h : Leaves n (s'.calls u) := h
    rw [hcalls] at h
    by_cases hu : u = t
    · subst hu
      rw [Function.update_self] at h
      exact Or.inr ⟨rfl, h⟩
    · rw [Function.update_of_ne hu] at h
      exact Or.inl ⟨h, fun he => hu (Party.caller.inj he)⟩
  | receiver k =>
    have h : s'.receivers k = ⟨n, .notifying⟩ := h
    rw [hreceivers] at h
    exact Or.inl ⟨h, Party.noConfusion⟩

theorem owes_of_call (h : s'.Owes n x) (hcalls : s'.calls = Function.update s.calls t p) (hreceivers : s'.receivers = s.receivers)
    (hleaves : Leaves n p → Leaves n (s.calls t)) : s.Owes n x := by
  rcases owes_call h hcalls hreceivers with ⟨h, -⟩ | ⟨rfl, hp⟩
  · exact h
  · exact hleaves hp

theorem owes_receiver {r : ReceiverThread} (h : s'.Owes n x) (hs : s'.calls = s.calls)
    (hr : s'.receivers = Function.update s.receivers k r) : (s.Owes n x ∧ x ≠ .receiver k) ∨ (x = .receiver k ∧ r = ⟨n, .notifying⟩) := by
  cases x with
  | caller u =>
    have h : Leaves n (s'.calls u) := h
    rw [hs] at h
    exact Or.inl ⟨h, Party.noConfusion⟩
  | receiver j =>
    have h : s'.receivers j = ⟨n, .notifying⟩ := h
    rw [hr] at h
    by_cases hj : j = k
    · subst hj
      rw [Function.update_self] at h
      exact Or.inr ⟨rfl, h⟩
    · rw [Function.update_of_ne hj] at h
      exact Or.inl ⟨h, fun he => hj (Party.receiver.inj he)⟩

/-- Nobody owes what was not owed before. -/
theorem Debts.keep (h : s.Debts) (howes : ∀ n x, s'.Owes n x → s.Owes n x) (hnotified : s'.notified = s.notified)
    (hreached : s.reached ≤ s'.reached) : s'.Debts where
  one n x y hx hy := h.one n x y (howes n x hx) (howes n y hy)
  unpaid n x hx := by
    rw [hnotified]
    exact h.unpaid n x (howes n x hx)
  once := by
    rw [hnotified]
    exact h.once
  past n hn := by
    rw [hnotified] at hn
    refine Nat.lt_of_lt_of_le (h.past n (hn.imp_right ?_)) hreached
    exact fun ⟨x, hx⟩ => ⟨x, howes n x hx⟩

/-- The session that goes on comes to its end: `x` owes its notification. -/
theorem Debts.owe (h : s.Debts) (hcurrent : s.Current n) (howes : ∀ m y, s'.Owes m y → s.Owes m y ∨ (y = x ∧ m = n))
    (hnotified : s'.notified = s.notified) (hreached : s'.reached = s.reached) : s'.Debts where
  one m y z hy hz := by
    rcases howes m y hy with hy | ⟨rfl, rfl⟩
    · rcases howes m z hz with hz | ⟨rfl, rfl⟩
      · exact h.one m y z hy hz
      · exact absurd hy (hcurrent.notOwed y)
    · rcases howes m z hz with hz | ⟨rfl, -⟩
      · exact absurd hz (hcurrent.notOwed z)
      · rfl
  unpaid m y hy := by
    rw [hnotified]
    rcases howes m y hy with hy | ⟨-, rfl⟩
    · exact h.unpaid m y hy
    · exact hcurrent.notPaid
  once := by
    rw [hnotified]
    exact h.once
  past m hm := by
    rw [hreached]
    rcases hm with hm | ⟨y, hy⟩
    · rw [hnotified] at hm
      exact h.past m (Or.inl hm)
    · rcases howes m y hy with hy | ⟨-, rfl⟩
      · exact h.past m (Or.inr ⟨y, hy⟩)
      · rw [← hcurrent.last]
        exact Nat.lt_succ_self m

/-- `x` pays what it owes. -/
theorem Debts.pay (h : s.Debts) (hx : s.Owes n x) (howes : ∀ m y, s'.Owes m y → s.Owes m y ∧ y ≠ x)
    (hnotified : s'.notified = s.notified ∨ s'.notified = s.notified ++ [n]) (hreached : s'.reached = s.reached) : s'.Debts := by
  rcases hnotified with hsame | hadd
  · exact h.keep (fun m y hy => (howes m y hy).1) hsame (Nat.le_of_eq hreached.symm)
  · refine ⟨fun m y z hy hz => h.one m y z (howes m y hy).1 (howes m z hz).1, ?_, ?_, ?_⟩
    · intro m y hy hm
      rw [hadd] at hm
      rcases List.mem_append.mp hm with hm | hm
      · exact h.unpaid m y (howes m y hy).1 hm
      · rw [List.mem_singleton.mp hm] at hy
        exact (howes n y hy).2 (h.one n y x (howes n y hy).1 hx)
    · rw [hadd]
      exact h.once.append (List.nodup_singleton n) fun m hm hm' =>
        h.unpaid n x hx (by rwa [List.mem_singleton.mp hm'] at hm)
    · intro m hm
      rw [hreached]
      rcases hm with hm | ⟨y, hy⟩
      · rw [hadd] at hm
        rcases List.mem_append.mp hm with hm | hm
        · exact h.past m (Or.inl hm)
        · rw [List.mem_singleton.mp hm]
          exact h.past n (Or.inr ⟨x, hx⟩)
      · exact h.past m (Or.inr ⟨y, (howes m y hy).1⟩)

theorem notify_cases (s : Sessions) (n : Nat) : (s.notify n).notified = s.notified ∨ (s.notify n).notified = s.notified ++ [n] := by
  unfold notify
  cases s.conn.onDisconnect with
  | true => exact Or.inr rfl
  | false => exact Or.inl rfl

theorem paid_of_notify {m : Nat} (hx : s.Owes n x) (hm : m ∈ (s.notify n).notified) : m ∈ s.notified ∨ ∃ x, s.Owes m x := by
  rcases notify_cases s n with hsame | hadd
  · rw [hsame] at hm
    exact Or.inl hm
  · rw [hadd] at hm
    refine (List.mem_append.mp hm).imp_right fun hm => ?_
    rw [List.mem_singleton.mp hm]
    exact ⟨x, hx⟩

theorem Sockets.close (h : s.Sockets) (hu : s.Usable) : s.closeSocket.Sockets := by
  have hopen : ¬ s.conn.socketFd < 0 := Int.not_lt.mpr hu.made
  have hclosed : s.closeSocket.closed = s.closed ++ [s.conn.socketFd] := if_neg hopen
  refine ⟨?_, ?_⟩
  · rw [hclosed]
    exact h.once.append (List.nodup_singleton _) fun fd hfd hfd' => hu.notClosed (by rwa [List.mem_singleton.mp hfd'] at hfd)
  · intro fd hfd
    rw [hclosed] at hfd
    rcases List.mem_append.mp hfd with hfd | hfd
    · exact h.past fd hfd
    · rw [List.mem_singleton.mp hfd]
      exact hu.past

/-! ## One step -/

theorem Orderly.placed (h : s.Orderly (some t)) (ht : s.calls t = p) : s.Fits p := by
  rw [← ht]
  exact h.fits

/-- A call under way keeps the connection CONNECTING or CONNECTED. -/
theorem Fits.busy (h : s.Fits p) (hp : UnderWay p) : s.conn.status = .connected ∨ s.conn.status = .connecting := by
  cases p with
  | idle | announcing | notifying => exact hp.elim
  | opening => exact Or.inr h
  | opened | ready => exact Or.inr h.1
  | creating | joining | closing => exact Or.inl h.1
  | finishing => exact Or.inl h
  | failing exit =>
    cases exit with
    | noThread => exact Or.inl h
    | noSocket | noPeer => exact Or.inr h

/-- Outside of a disconnect that waits, a call under way has no receiver with it. -/
theorem Orderly.noneAlive (h : s.Orderly (some t)) (hidle : s.calls t ≠ .idle) (hjoining : ∀ n, s.calls t ≠ .joining n) :
    ∀ k, ¬ s.Alive k := by
  intro k hk
  rcases (h.alive k hk).2 with ⟨hp, -⟩ | ⟨n, hp⟩
  · exact hidle hp
  · exact hjoining n hp

/-- The call under way goes on, with no receiver. -/
theorem Orderly.stays (h : s.Orderly (some t)) (hnone : ∀ k, ¬ s.Alive k) (hp : UnderWay p)
    (hcalls : s'.calls = Function.update s.calls t p) (hreceivers : s'.receivers = s.receivers) (hfits : s'.Fits p)
    (hleaves : ∀ n, Leaves n p → Leaves n (s.calls t)) (hnotified : s'.notified = s.notified)
    (hreached : s.reached ≤ s'.reached) (hsockets : s'.Sockets) : s'.Orderly (some t) := by
  refine ⟨?_, ?_, ?_, h.debts.keep (fun n _ hx => owes_of_call hx hcalls hreceivers (hleaves n)) hnotified hreached, hsockets⟩
  · rw [hcalls]
    exact h.single.stay (iff_of_true hp ((h.single t).mpr rfl))
  · rw [hcalls, Lock.current_self]
    exact hfits
  · intro k hk
    have hk : (s'.receivers k).place ≠ .notifying ∧ (s'.receivers k).place ≠ .exited := hk
    rw [hreceivers] at hk
    exact absurd hk (hnone k)

/-- The call under way ends, with no receiver. -/
theorem Orderly.ends (h : s.Orderly (some t)) (hnone : ∀ k, ¬ s.Alive k) (hp : ¬ UnderWay p)
    (hcalls : s'.calls = Function.update s.calls t p) (hreceivers : s'.receivers = s.receivers) (hfits : s'.Fits .idle)
    (hleaves : ∀ n, Leaves n p → Leaves n (s.calls t)) (hnotified : s'.notified = s.notified)
    (hreached : s'.reached = s.reached) (hsockets : s'.Sockets) : s'.Orderly none := by
  have hdebts := h.debts.keep (fun n _ hx => owes_of_call hx hcalls hreceivers (hleaves n)) hnotified (Nat.le_of_eq hreached.symm)
  refine ⟨?_, hfits, ?_, hdebts, hsockets⟩
  · rw [hcalls]
    exact h.single.release hp
  · intro k hk
    have hk : (s'.receivers k).place ≠ .notifying ∧ (s'.receivers k).place ≠ .exited := hk
    rw [hreceivers] at hk
    exact absurd hk (hnone k)

/-! ### The call under way -/

theorem opening_step (h : s.Orderly (some t)) (ht : s.calls t = .opening) (ok : Bool) : (callStep s t ok).Orderly (some t) := by
  have hnone := h.noneAlive (by simp [ht]) (by simp [ht])
  have hfits : s.conn.status = .connecting := h.placed ht
  cases ok with
  | true =>
    simp only [callStep, ht, if_true]
    have hpast : (s.opened : Int) < (s.opened + 1 : Nat) := Int.ofNat_lt.mpr (Nat.lt_succ_self _)
    refine h.stays (p := .opened .resolve) hnone trivial rfl rfl ?_ (by simp [Leaves]) rfl (Nat.le_refl _) ?_
    · exact ⟨hfits, Int.natCast_nonneg _, hpast, fun hmem => absurd (h.sockets.past _ hmem) (Int.lt_irrefl _)⟩
    · exact ⟨h.sockets.once, fun fd hfd => Int.lt_trans (h.sockets.past fd hfd) hpast⟩
  | false =>
    simp only [callStep, ht, Bool.false_eq_true, if_false]
    exact h.stays (p := .failing .noSocket) hnone trivial rfl rfl hfits (by simp [Leaves]) rfl (Nat.le_refl _)
      ⟨h.sockets.once, h.sockets.past⟩

theorem opened_step {stage : Stage} (h : s.Orderly (some t)) (ht : s.calls t = .opened stage) (ok : Bool) :
    (callStep s t ok).Orderly (some t) := by
  have hnone := h.noneAlive (by simp [ht]) (by simp [ht])
  have hfits : s.conn.status = .connecting ∧ s.Usable := h.placed ht
  have husable : (s.go t (afterStage stage)).Usable := ⟨hfits.2.made, hfits.2.past, hfits.2.notClosed⟩
  cases ok with
  | true =>
    simp only [callStep, ht, if_true]
    refine h.stays hnone ?_ rfl rfl ?_ ?_ rfl (Nat.le_refl _) ⟨h.sockets.once, h.sockets.past⟩
    · cases stage <;> trivial
    · cases stage <;> exact ⟨hfits.1, husable⟩
    · cases stage <;> simp [afterStage, Leaves]
  | false =>
    simp only [callStep, ht, Bool.false_eq_true, if_false]
    have hsockets := h.sockets.close hfits.2
    exact h.stays (p := .failing .noPeer) hnone trivial rfl rfl hfits.1 (by simp [Leaves]) rfl (Nat.le_refl _)
      ⟨hsockets.once, hsockets.past⟩

theorem ready_step (h : s.Orderly (some t)) (ht : s.calls t = .ready) (ok : Bool) : (callStep s t ok).Orderly (some t) := by
  have hnone := h.noneAlive (by simp [ht]) (by simp [ht])
  have hfits : s.conn.status = .connecting ∧ s.Usable := h.placed ht
  simp only [callStep, ht]
  refine h.stays (p := .creating s.reached) hnone trivial rfl rfl ?_ (by simp [Leaves]) rfl (Nat.le_succ _)
    ⟨h.sockets.once, h.sockets.past⟩
  refine ⟨rfl, ⟨hfits.2.made, hfits.2.past, hfits.2.notClosed⟩, rfl, ?_, ?_⟩
  · -- A session is owed a notification only once it was reached.
    intro x hx
    refine Nat.lt_irrefl _ (h.debts.past s.reached (Or.inr ⟨x, ?_⟩))
    exact owes_of_call hx rfl rfl (by simp [Leaves])
  · exact fun hmem => Nat.lt_irrefl _ (h.debts.past s.reached (Or.inl hmem))

theorem creating_fails (h : s.Orderly (some t)) (ht : s.calls t = .creating n) : (callStep s t false).Orderly (some t) := by
  have hnone := h.noneAlive (by simp [ht]) (by simp [ht])
  have hfits : s.conn.status = .connected ∧ s.Usable ∧ s.Current n := h.placed ht
  simp only [callStep, ht, Bool.false_eq_true, if_false]
  have hsockets := h.sockets.close hfits.2.1
  exact h.stays (p := .failing .noThread) hnone trivial rfl rfl hfits.1 (by simp [Leaves]) rfl (Nat.le_refl _)
    ⟨hsockets.once, hsockets.past⟩

/-- The receiver begins, and the call under way is over. -/
theorem creating_succeeds (h : s.Orderly (some t)) (ht : s.calls t = .creating n) : (callStep s t true).Orderly none := by
  have hnone := h.noneAlive (by simp [ht]) (by simp [ht])
  obtain ⟨hconnected, husable, hcurrent⟩ : s.conn.status = .connected ∧ s.Usable ∧ s.Current n := h.placed ht
  simp only [callStep, ht, if_true]
  set s' : Sessions := { s.go t .announcing with
    receivers := Function.update s.receivers s.made ⟨n, .looking⟩, thread := some s.made, made := s.made + 1 } with hs'
  have hcalls : s'.calls = Function.update s.calls t .announcing := rfl
  have howes : ∀ m x, s'.Owes m x → s.Owes m x := by
    intro m x hx
    rcases owes_receiver (s := s.go t .announcing) hx rfl rfl with ⟨hx, -⟩ | ⟨-, hr⟩
    · exact owes_of_call hx rfl rfl (by simp [Leaves])
    · cases hr
  have hat : s'.receivers s.made = ⟨n, .looking⟩ := Function.update_self ..
  refine ⟨?_, ⟨?_, fun _ => ⟨⟨husable.made, husable.past, husable.notClosed⟩, n, ?_, s.made, rfl, ?_⟩⟩, ?_,
    h.debts.keep howes rfl (Nat.le_refl _), ⟨h.sockets.once, h.sockets.past⟩⟩
  · rw [hcalls]
    exact h.single.release fun hp => hp
  · exact fun hc => ConnectionStatus.noConfusion (hconnected.symm.trans hc)
  · exact ⟨hcurrent.last, fun x hx => hcurrent.notOwed x (howes n x hx), hcurrent.notPaid⟩
  · rw [hat]
  · intro k hk
    by_cases hmade : k = s.made
    · subst hmade
      exact ⟨rfl, Or.inl ⟨rfl, hconnected⟩⟩
    · refine absurd ?_ (hnone k)
      have hk : (s'.receivers k).place ≠ .notifying ∧ (s'.receivers k).place ≠ .exited := hk
      rwa [show s'.receivers k = s.receivers k from Function.update_of_ne hmade ..] at hk

theorem failing_step {exit : Exit} (h : s.Orderly (some t)) (ht : s.calls t = .failing exit) (ok : Bool) :
    (callStep s t ok).Orderly none := by
  have hnone := h.noneAlive (by simp [ht]) (by simp [ht])
  have hfailed : (afterExit s.conn exit).status = .failed := by cases exit <;> rfl
  simp only [callStep, ht]
  refine h.ends (p := .idle) hnone (fun hp => hp) rfl rfl ?_ (by simp [Leaves]) rfl rfl ⟨h.sockets.once, h.sockets.past⟩
  refine ⟨fun hc => ?_, fun hc => ?_⟩
  · exact ConnectionStatus.noConfusion (hfailed.symm.trans hc)
  · exact ConnectionStatus.noConfusion (hfailed.symm.trans hc)

/-- The one receiver there was has exited. -/
theorem joining_step (h : s.Orderly (some t)) (ht : s.calls t = .joining n) (ok : Bool) :
    (callStep s t ok).Orderly (some t) := by
  have hfits : s.conn.status = .connected ∧ s.Usable := h.placed ht
  simp only [callStep, ht]
  split
  next => exact h
  next k hthread =>
  split
  next hexited =>
    have hnone : ∀ j, ¬ s.Alive j := by
      intro j hj
      have hlast : some k = some j := hthread.symm.trans (h.alive j hj).1
      rw [Option.some.inj hlast] at hexited
      exact hj.2 hexited
    exact h.stays (p := .closing n) hnone trivial rfl rfl ⟨hfits.1, hfits.2.made, hfits.2.past, hfits.2.notClosed⟩
      (by simp [Leaves, ht]) rfl (Nat.le_refl _) ⟨h.sockets.once, h.sockets.past⟩
  next => exact h

theorem closing_step (h : s.Orderly (some t)) (ht : s.calls t = .closing n) (ok : Bool) :
    (callStep s t ok).Orderly (some t) := by
  have hnone := h.noneAlive (by simp [ht]) (by simp [ht])
  have hfits : s.conn.status = .connected ∧ s.Usable := h.placed ht
  have hsockets := h.sockets.close hfits.2
  simp only [callStep, ht]
  exact h.stays (p := .finishing n) hnone trivial rfl rfl hfits.1 (by simp [Leaves, ht]) rfl (Nat.le_refl _)
    ⟨hsockets.once, hsockets.past⟩

theorem finishing_step (h : s.Orderly (some t)) (ht : s.calls t = .finishing n) (ok : Bool) : (callStep s t ok).Orderly none := by
  have hnone := h.noneAlive (by simp [ht]) (by simp [ht])
  simp only [callStep, ht]
  exact h.ends (p := .notifying n) hnone (fun hp => hp) rfl rfl ⟨ConnectionStatus.noConfusion, ConnectionStatus.noConfusion⟩
    (by simp [Leaves, ht]) rfl rfl ⟨h.sockets.once, h.sockets.past⟩

/-! ### Beside the call under way -/

/-- What a step leaves as it is that is not the call's under way. -/
structure Beside (s s' : Sessions) : Prop where
  status : s'.conn.status = s.conn.status
  socketFd : s'.conn.socketFd = s.conn.socketFd
  opened : s'.opened = s.opened
  closed : s'.closed = s.closed
  reached : s'.reached = s.reached
  thread : s'.thread = s.thread
  sessions : ∀ k, (s'.receivers k).session = (s.receivers k).session
  alive : ∀ k, s'.Alive k → s.Alive k
  owes : ∀ n x, s'.Owes n x → s.Owes n x
  paid : ∀ n ∈ s'.notified, n ∈ s.notified ∨ ∃ x, s.Owes n x

theorem Beside.usable (h : Beside s s') (hu : s.Usable) : s'.Usable := by
  refine ⟨?_, ?_, ?_⟩
  · rw [h.socketFd]
    exact hu.made
  · rw [h.socketFd, h.opened]
    exact hu.past
  · rw [h.socketFd, h.closed]
    exact hu.notClosed

/-- Who pays owes it, so it is not for the session that goes on. -/
theorem Beside.current (h : Beside s s') (hn : s.Current n) : s'.Current n := by
  refine ⟨hn.last.trans h.reached.symm, fun x hx => hn.notOwed x (h.owes n x hx), fun hmem => ?_⟩
  rcases h.paid n hmem with hmem | ⟨x, hx⟩
  · exact hn.notPaid hmem
  · exact hn.notOwed x hx

theorem Beside.fits (h : Beside s s') (hp : s.Fits p) : s'.Fits p := by
  cases p with
  | idle =>
    refine ⟨fun hc => hp.1 (h.status.symm.trans hc), fun hc => ?_⟩
    obtain ⟨husable, n, hcurrent, k, hthread, hsession⟩ := hp.2 (h.status.symm.trans hc)
    exact ⟨h.usable husable, n, h.current hcurrent, k, h.thread.trans hthread, (h.sessions k).trans hsession⟩
  | opening => exact h.status.trans hp
  | opened | ready | joining | closing => exact ⟨h.status.trans hp.1, h.usable hp.2⟩
  | creating => exact ⟨h.status.trans hp.1, h.usable hp.2.1, h.current hp.2.2⟩
  | failing exit => cases exit <;> exact h.status.trans hp
  | finishing => exact h.status.trans hp
  | announcing | notifying => exact hp

theorem Orderly.beside (h : s.Orderly holder) (hb : Beside s s') (hsingle : Lock.Excludes UnderWay holder s'.calls)
    (hcurrent : Lock.current .idle holder s'.calls = Lock.current .idle holder s.calls) (hdebts : s'.Debts) :
    s'.Orderly holder := by
  refine ⟨hsingle, ?_, ?_, hdebts, ?_⟩
  · rw [hcurrent]
    exact hb.fits h.fits
  · intro k hk
    obtain ⟨hthread, hserves⟩ := h.alive k (hb.alive k hk)
    rw [hcurrent]
    exact ⟨hb.thread.trans hthread, hserves.imp_left fun hp => ⟨hp.1, hb.status.trans hp.2⟩⟩
  · refine ⟨?_, ?_⟩
    · rw [hb.closed]
      exact h.sockets.once
    · rw [hb.closed, hb.opened]
      exact h.sockets.past

theorem announcing_step (h : s.Orderly holder) (ht : s.calls t = .announcing) (ok : Bool) : (callStep s t ok).Orderly holder := by
  have hout : ¬ UnderWay (s.calls t) := by simp [ht, UnderWay]
  simp only [callStep, ht]
  have howes : ∀ n x, (s.go t .idle).Owes n x → s.Owes n x := fun n x hx => owes_of_call hx rfl rfl (by simp [Leaves])
  refine h.beside ⟨rfl, rfl, rfl, rfl, rfl, rfl, fun _ => rfl, fun _ hk => hk, howes, fun _ => Or.inl⟩
    (h.single.stay (iff_of_false (fun hp => hp) hout)) (h.single.current_other hout) ?_
  exact h.debts.keep howes rfl (Nat.le_refl _)

theorem notifying_step (h : s.Orderly holder) (ht : s.calls t = .notifying n) (ok : Bool) : (callStep s t ok).Orderly holder := by
  have hout : ¬ UnderWay (s.calls t) := by simp [ht, UnderWay]
  have hdue : s.Owes n (.caller t) := by
    refine Or.inr (Or.inr (Or.inr ?_))
    exact ht
  simp only [callStep, ht]
  have howes : ∀ m x, ((s.notify n).go t .idle).Owes m x → s.Owes m x ∧ x ≠ .caller t := by
    intro m x hx
    rcases owes_call hx rfl rfl with hx | ⟨-, hp⟩
    · exact hx
    · exact absurd hp (by simp [Leaves])
  refine h.beside ⟨rfl, rfl, rfl, rfl, rfl, rfl, fun _ => rfl, fun _ hk => hk, fun m x hx => (howes m x hx).1, ?_⟩
    (h.single.stay (iff_of_false (fun hp => hp) hout)) (h.single.current_other hout) ?_
  · exact fun m hm => paid_of_notify hdue hm
  · exact h.debts.pay hdue howes (notify_cases s n) rfl

theorem setOnDisconnect_step (h : s.Orderly holder) (set : Bool) : (sessionStep s (.setOnDisconnect set)).Orderly holder :=
  h.beside ⟨rfl, rfl, rfl, rfl, rfl, rfl, fun _ => rfl, fun _ hk => hk, fun n x hx => by cases x <;> exact hx, fun _ => Or.inl⟩
    h.single rfl (h.debts.keep (fun n x hx => by cases x <;> exact hx) rfl (Nat.le_refl _))

/-! ### Calls that begin -/

theorem Orderly.begins (h : s.Orderly none) (hp : UnderWay p) (hcalls : s'.calls = Function.update s.calls t p) (hfits : s'.Fits p)
    (halive : ∀ k, s'.Alive k → s'.Serves p k) (hdebts : s'.Debts) (hsockets : s'.Sockets) : s'.Orderly (some t) := by
  have hcurrent : Lock.current .idle (some t) s'.calls = p := by rw [hcalls, Lock.current_self]
  refine ⟨?_, ?_, ?_, hdebts, hsockets⟩
  · rw [hcalls]
    exact h.single.take hp
  · rw [hcurrent]
    exact hfits
  · rw [hcurrent]
    exact halive

/-- With the connection in neither state, no call is under way and no receiver is left. -/
theorem connectBegins_orderly (h : s.Orderly holder) (t : Nat) : ∃ holder', (connectBegins s t).Orderly holder' := by
  unfold connectBegins
  split
  · split
    · exact ⟨holder, h⟩
    next hfree =>
      have hholder : holder = none := by
        cases holder with
        | none => rfl
        | some u => exact absurd ((h.placed rfl).busy ((h.single u).mpr rfl)) hfree
      subst hholder
      refine ⟨some t, h.begins (p := .opening) trivial rfl rfl ?_ ?_ ⟨h.sockets.once, h.sockets.past⟩⟩
      · intro k hk
        rcases (h.alive k hk).2 with ⟨-, hc⟩ | ⟨n, hp⟩
        · exact absurd (Or.inl hc) hfree
        · cases hp
      · exact h.debts.keep (fun n x hx => owes_of_call hx rfl rfl (by simp [Leaves])) rfl (Nat.le_refl _)
  · exact ⟨holder, h⟩

/-- CONNECTED, with its receiver, and with no disconnect under way: no call is. -/
theorem Fits.quiet (h : s.Fits p) (hc : s.conn.status = .connected) (hp : ¬ Disconnecting p) (hp' : ¬ Unattended p) :
    ¬ UnderWay p := by
  intro hin
  cases p with
  | idle | announcing | notifying => exact hin
  | opening => exact ConnectionStatus.noConfusion (hc.symm.trans h)
  | opened | ready => exact ConnectionStatus.noConfusion (hc.symm.trans h.1)
  | creating => exact hp' trivial
  | joining | closing | finishing => exact hp trivial
  | failing exit =>
    cases exit with
    | noThread => exact hp' trivial
    | noSocket | noPeer => exact ConnectionStatus.noConfusion (hc.symm.trans h)

theorem disconnectCalled_orderly (h : s.Orderly holder) (t : Nat) (hok : Undisturbed s (.disconnect t)) :
    ∃ holder', (disconnectCalled s t).Orderly holder' := by
  unfold disconnectCalled
  split
  next hidle =>
    split
    · exact ⟨holder, h⟩
    next hc =>
      have hc : s.conn.status = .connected := of_not_not hc
      have hholder : holder = none := by
        cases holder with
        | none => rfl
        | some u =>
          have hu := hok hidle hc u
          exact absurd ((h.single u).mpr rfl) ((h.placed rfl).quiet hc hu.1 hu.2)
      subst hholder
      obtain ⟨husable, n, hcurrent, hattended⟩ := h.fits.2 hc
      have hlast : s.reached - 1 = n := Nat.sub_eq_of_eq_add hcurrent.last.symm
      rw [hlast]
      refine ⟨some t, h.begins (p := .joining n) trivial rfl ⟨hc, husable.made, husable.past, husable.notClosed⟩ ?_ ?_
        ⟨h.sockets.once, h.sockets.past⟩⟩
      · intro k hk
        exact ⟨(h.alive k hk).1, Or.inr ⟨n, rfl⟩⟩
      · refine h.debts.owe (x := .caller t) hcurrent ?_ rfl rfl
        intro m x hx
        rcases owes_call hx rfl rfl with ⟨hx, -⟩ | ⟨hx, hp⟩
        · exact Or.inl hx
        · exact Or.inr ⟨hx, by simpa [Leaves, eq_comm] using hp⟩
  · exact ⟨holder, h⟩

/-! ### The receivers -/

theorem receiverGo_self (s : Sessions) (k : Nat) (p : ReceiverPlace) :
    (s.receiverGo k p).receivers k = { s.receivers k with place := p } := Function.update_self ..

theorem receiverGo_of_ne {j : Nat} (hj : j ≠ k) (s : Sessions) (p : ReceiverPlace) :
    (s.receiverGo k p).receivers j = s.receivers j := Function.update_of_ne hj ..

theorem receiverGo_session (s : Sessions) (k : Nat) (p : ReceiverPlace) (j : Nat) :
    ((s.receiverGo k p).receivers j).session = (s.receivers j).session := by
  by_cases hj : j = k
  · subst hj
    rw [receiverGo_self]
  · rw [receiverGo_of_ne hj]

theorem receiverGo_alive {p : ReceiverPlace} {j : Nat} (hk : s.Alive k ∨ p = .notifying ∨ p = .exited)
    (hj : (s.receiverGo k p).Alive j) : s.Alive j := by
  unfold Alive at hj
  by_cases hjk : j = k
  · subst hjk
    rw [receiverGo_self] at hj
    rcases hk with hk | hk | hk
    · exact hk
    · exact absurd hk hj.1
    · exact absurd hk hj.2
  · rw [receiverGo_of_ne hjk] at hj
    exact hj

/-- A receiver goes on, or stops, without a loss. -/
theorem Orderly.receiverGo {p : ReceiverPlace} (h : s.Orderly holder) (hk : s.Alive k) (hp : p ≠ .notifying) :
    (s.receiverGo k p).Orderly holder := by
  have howes : ∀ n x, (s.receiverGo k p).Owes n x → s.Owes n x := by
    intro n x hx
    rcases owes_receiver (s := s) hx rfl rfl with ⟨hx, -⟩ | ⟨-, hr⟩
    · exact hx
    · exact absurd (congrArg ReceiverThread.place hr) hp
  exact h.beside ⟨rfl, rfl, rfl, rfl, rfl, rfl, receiverGo_session s k p, fun _ => receiverGo_alive (Or.inl hk), howes, fun _ => Or.inl⟩
    h.single rfl (h.debts.keep howes rfl (Nat.le_refl _))

/-- The loss is of the session that goes on, and with no disconnect under way nobody else
    sees its end. -/
theorem losing_orderly (h : s.Orderly holder) (hk : (s.receivers k).place = .losing) (hok : ∀ t, ¬ Disconnecting (s.calls t)) :
    ((s.setConn { s.conn with running := 0, status := .disconnected }).receiverGo k .notifying).Orderly holder := by
  have halive : s.Alive k := by simp [Alive, hk]
  obtain ⟨hthread, hserves⟩ := h.alive k halive
  have hholder : holder = none ∧ s.conn.status = .connected := by
    cases holder with
    | none =>
      rcases hserves with ⟨-, hc⟩ | ⟨n, hp⟩
      · exact ⟨rfl, hc⟩
      · cases hp
    | some u =>
      have hin := (h.single u).mpr rfl
      have hu := hok u
      rcases hserves with ⟨hp, -⟩ | ⟨n, hp⟩
      · rw [show s.calls u = .idle from hp] at hin
        exact hin.elim
      · rw [show s.calls u = .joining n from hp] at hu
        exact absurd trivial hu
  obtain ⟨rfl, hc⟩ := hholder
  obtain ⟨-, n, hcurrent, k', hthread', hsession⟩ := h.fits.2 hc
  obtain rfl : k' = k := Option.some.inj (hthread'.symm.trans hthread)
  refine ⟨h.single, ⟨ConnectionStatus.noConfusion, ConnectionStatus.noConfusion⟩, ?_, ?_, ⟨h.sockets.once, h.sockets.past⟩⟩
  · intro j hj
    have hjalive : s.Alive j :=
      receiverGo_alive (s := s.setConn { s.conn with running := 0, status := .disconnected }) (Or.inr (Or.inl rfl)) hj
    have hlast : some j = some k' := (h.alive j hjalive).1.symm.trans hthread
    rw [Option.some.inj hlast] at hj
    refine absurd ?_ hj.1
    rw [receiverGo_self]
  · refine h.debts.owe (x := .receiver k') hcurrent ?_ rfl rfl
    intro m x hx
    rcases owes_receiver (s := s.setConn { s.conn with running := 0, status := .disconnected }) hx rfl rfl with ⟨hx, -⟩ | ⟨hx, hr⟩
    · refine Or.inl ?_
      cases x <;> exact hx
    · exact Or.inr ⟨hx, (congrArg ReceiverThread.session hr).symm.trans hsession⟩

theorem receiver_notifies (h : s.Orderly holder) (hk : (s.receivers k).place = .notifying) :
    ((s.notify (s.receivers k).session).receiverGo k .exited).Orderly holder := by
  have hdue : s.Owes (s.receivers k).session (.receiver k) := congrArg (ReceiverThread.mk (s.receivers k).session) hk
  have howes : ∀ m x, ((s.notify (s.receivers k).session).receiverGo k .exited).Owes m x → s.Owes m x ∧ x ≠ .receiver k := by
    intro m x hx
    rcases owes_receiver (s := s.notify (s.receivers k).session) hx rfl rfl with ⟨hx, hne⟩ | ⟨-, hr⟩
    · refine ⟨?_, hne⟩
      cases x <;> exact hx
    · exact absurd (congrArg ReceiverThread.place hr) ReceiverPlace.noConfusion
  refine h.beside ⟨rfl, rfl, rfl, rfl, rfl, rfl, receiverGo_session (s.notify _) k .exited, ?_, fun m x hx => (howes m x hx).1, ?_⟩
    h.single rfl (h.debts.pay hdue howes (notify_cases s _) rfl)
  · exact fun j => receiverGo_alive (s := s.notify (s.receivers k).session) (Or.inr (Or.inr rfl))
  · exact fun m hm => paid_of_notify hdue hm

theorem receiverThreadStep_orderly (h : s.Orderly holder) (k : Nat) (result : ReceiveResult)
    (hok : Undisturbed s (.receive k result)) : (receiverThreadStep s k result).Orderly holder := by
  unfold receiverThreadStep
  cases hk : (s.receivers k).place with
  | looking =>
    have halive : s.Alive k := by simp [Alive, hk]
    simp only []
    split
    · exact h.receiverGo halive ReceiverPlace.noConfusion
    · exact h.receiverGo halive ReceiverPlace.noConfusion
  | receiving =>
    have halive : s.Alive k := by simp [Alive, hk]
    cases result with
    | message | failed | lost => exact h.receiverGo halive ReceiverPlace.noConfusion
  | losing => exact losing_orderly h hk (hok hk)
  | notifying => exact receiver_notifies h hk
  | exited => exact h

/-! ## Runs -/

theorem callStep_orderly (h : s.Orderly holder) (t : Nat) (ok : Bool) : ∃ holder', (callStep s t ok).Orderly holder' := by
  have hheld : UnderWay (s.calls t) → holder = some t := (h.single t).mp
  cases ht : s.calls t with
  | idle =>
    refine ⟨holder, ?_⟩
    rw [show callStep s t ok = s by simp only [callStep, ht]]
    exact h
  | announcing => exact ⟨holder, announcing_step h ht ok⟩
  | notifying n => exact ⟨holder, notifying_step h ht ok⟩
  | opening =>
    obtain rfl := hheld (by rw [ht]; trivial)
    exact ⟨_, opening_step h ht ok⟩
  | opened stage =>
    obtain rfl := hheld (by rw [ht]; trivial)
    exact ⟨_, opened_step h ht ok⟩
  | ready =>
    obtain rfl := hheld (by rw [ht]; trivial)
    exact ⟨_, ready_step h ht ok⟩
  | creating n =>
    obtain rfl := hheld (by rw [ht]; trivial)
    cases ok with
    | true => exact ⟨_, creating_succeeds h ht⟩
    | false => exact ⟨_, creating_fails h ht⟩
  | failing exit =>
    obtain rfl := hheld (by rw [ht]; trivial)
    exact ⟨_, failing_step h ht ok⟩
  | joining n =>
    obtain rfl := hheld (by rw [ht]; trivial)
    exact ⟨_, joining_step h ht ok⟩
  | closing n =>
    obtain rfl := hheld (by rw [ht]; trivial)
    exact ⟨_, closing_step h ht ok⟩
  | finishing n =>
    obtain rfl := hheld (by rw [ht]; trivial)
    exact ⟨_, finishing_step h ht ok⟩

theorem sessionStep_orderly (s : Sessions) (e : SessionEvent) (h : ∃ holder, s.Orderly holder) (hok : Undisturbed s e) :
    ∃ holder, (sessionStep s e).Orderly holder := by
  obtain ⟨holder, h⟩ := h
  cases e with
  | connect t => exact connectBegins_orderly h t
  | disconnect t => exact disconnectCalled_orderly h t hok
  | step t ok => exact callStep_orderly h t ok
  | receive k result => exact ⟨holder, receiverThreadStep_orderly h k result hok⟩
  | setOnDisconnect set => exact ⟨holder, setOnDisconnect_step h set⟩

theorem newSessions_orderly : newSessions.Orderly none where
  single t := iff_of_false (fun hp => hp) (Option.some_ne_none t).symm
  fits := ⟨ConnectionStatus.noConfusion, ConnectionStatus.noConfusion⟩
  alive k hk := absurd rfl hk.2
  debts := by
    have hnone : ∀ n x, ¬ newSessions.Owes n x := by
      intro n x hx
      cases x with
      | caller t => exact absurd hx (by simp [Owes, newSessions, Leaves])
      | receiver k => exact ReceiverPlace.noConfusion (congrArg ReceiverThread.place hx)
    exact ⟨fun n x y hx => absurd hx (hnone n x), fun n x hx => absurd hx (hnone n x), List.nodup_nil,
      fun n hn => hn.elim (fun hmem => absurd hmem List.not_mem_nil) fun ⟨x, hx⟩ => absurd hx (hnone n x)⟩
  sockets := ⟨List.nodup_nil, fun _ hmem => absurd hmem List.not_mem_nil⟩

theorem notified_at_most_once (es : List SessionEvent) (h : Run.Along sessionStep Undisturbed newSessions es) :
    (∀ n, (Run.run sessionStep newSessions es).notified.count n ≤ 1) ∧
      (∀ n ∈ (Run.run sessionStep newSessions es).notified, n < (Run.run sessionStep newSessions es).reached) ∧
      ∀ fd, (Run.run sessionStep newSessions es).closed.count fd ≤ 1 := by
  obtain ⟨holder, horderly⟩ := Run.along_inv sessionStep_orderly ⟨none, newSessions_orderly⟩ h
  refine ⟨fun n => ?_, fun n hn => horderly.debts.past n (Or.inl hn), fun fd => ?_⟩
  · exact List.nodup_iff_count_le_one.mp horderly.debts.once n
  · exact List.nodup_iff_count_le_one.mp horderly.sockets.once fd

/-- A connect that succeeds, called by caller 0. -/
def connected : List SessionEvent := .connect 0 :: List.replicate 8 (.step 0 true)

/-- The session ends by a disconnect. -/
def ended : List SessionEvent :=
  .setOnDisconnect true :: connected ++ [.disconnect 0, .receive 0 .message] ++ List.replicate 4 (.step 0 true)

theorem notified_at_most_once_when_ended :
    (∀ n, (Run.run sessionStep newSessions ended).notified.count n ≤ 1) ∧
      (∀ n ∈ (Run.run sessionStep newSessions ended).notified, n < (Run.run sessionStep newSessions ended).reached) ∧
      ∀ fd, (Run.run sessionStep newSessions ended).closed.count fd ≤ 1 := by
  refine notified_at_most_once ended ⟨trivial, trivial, trivial, trivial, trivial, trivial, trivial, trivial, trivial, trivial,
    fun _ _ u => ?_, fun hk => ?_, trivial, trivial, trivial, trivial, trivial⟩
  · simp [sessionStep, callStep, connectBegins, newSessions, go, setConn, afterStage, Disconnecting, Unattended]
  · cases hk

/-- The receiver, in `receive_message_data` when the disconnect begins, finds the
    connection lost. -/
def lostMeanwhile : List SessionEvent :=
  .setOnDisconnect true :: connected ++ [.receive 0 .message, .disconnect 0] ++ List.replicate 3 (.receive 0 .lost) ++
    List.replicate 4 (.step 0 true)

theorem a_loss_during_disconnect_is_notified_twice :
    ¬ ∀ es n, (Run.run sessionStep newSessions es).notified.count n ≤ 1 :=
  fun h => absurd (h lostMeanwhile 0) (by decide)

end Sessions

end RabbitMQ.Core
