/-
  RabbitMQ.Core.Balance — what `connection_connect` opens and creates, and what is closed and
  joined by the time `connection_free` returns.

  One caller, whose calls come one after another; `connection_free` reads the status without
  the mutex, calls `connection_disconnect` if it is CONNECTED, and is the last of them. The
  steps are those of `Sessions`, the receivers' among them.

  The path on which the receiver finds the connection lost says "close and notify", and
  only notifies: neither the socket nor the thread is released, then or later. So the
  resources balance exactly when a loss is taken note of only while a disconnect waits for
  the receiver (`released_once_iff`).
-/

import RabbitMQ.Core.Sessions

namespace RabbitMQ.Core

open Lib

inductive FreePlace where
  | notCalled
  /-- The status was CONNECTED. -/
  | checked
  | disconnecting
  | freed
  deriving DecidableEq, Repr

structure Ownership where
  sessions : Sessions
  free : FreePlace

def newOwnership : Ownership := ⟨newSessions, .notCalled⟩

/-- `connection_free`, called when no other call is in progress. -/
def connectionFree (s : Ownership) : Ownership :=
  match s.free, s.sessions.calls 0 with
  | .notCalled, .idle => if s.sessions.conn.status = .connected then { s with free := .checked } else { s with free := .freed }
  | _, _ => s

/-- The caller's next step. -/
def ownerGoesOn (s : Ownership) (ok : Bool) : Ownership :=
  match s.free with
  | .notCalled => { s with sessions := callStep s.sessions 0 ok }
  | .checked => ⟨disconnectCalled s.sessions 0, .disconnecting⟩
  | .disconnecting =>
    if s.sessions.calls 0 = .idle then { s with free := .freed } else { s with sessions := callStep s.sessions 0 ok }
  | .freed => s

inductive OwnerEvent where
  | connect
  | disconnect
  | free
  | step (ok : Bool)
  | receive (k : Nat) (result : ReceiveResult)
  | setOnDisconnect (set : Bool)
  deriving DecidableEq, Repr

def ownerStep (s : Ownership) : OwnerEvent → Ownership
  | .connect => if s.free = .notCalled then { s with sessions := connectBegins s.sessions 0 } else s
  | .disconnect => if s.free = .notCalled then { s with sessions := disconnectCalled s.sessions 0 } else s
  | .free => connectionFree s
  | .step ok => ownerGoesOn s ok
  | .receive k result => if s.free = .freed then s else { s with sessions := receiverThreadStep s.sessions k result }
  | .setOnDisconnect set => if s.free = .notCalled then { s with sessions := sessionStep s.sessions (.setOnDisconnect set) } else s

namespace Sessions

structure Balanced (s : Sessions) : Prop where
  sockets : ∀ n < s.opened, s.closed.count (n : Int) = 1
  threads : ∀ k < s.made, s.joined.count k = 1

/-! ## The accounts -/

/-- The first `n` sockets were closed, in the order they were opened in. -/
def ClosedTo (s : Sessions) (n : Nat) : Prop := s.closed = (List.range n).map Int.ofNat

/-- All but the connection's. -/
def SocketOpen (s : Sessions) : Prop := ∃ n, s.conn.socketFd = Int.ofNat n ∧ s.opened = n + 1 ∧ s.ClosedTo n

def SocketsClosed (s : Sessions) : Prop := s.ClosedTo s.opened

/-- All but the last were joined. -/
def ThreadGoing (s : Sessions) : Prop := ∃ k, s.thread = some k ∧ s.made = k + 1 ∧ s.joined = List.range k

def ThreadsJoined (s : Sessions) : Prop := s.joined = List.range s.made

/-- What is still to be released where the caller is at a place. -/
def Accounts (s : Sessions) : CallPlace → Prop
  | .idle | .announcing | .notifying _ =>
    (s.conn.status = .connected → s.SocketOpen ∧ s.ThreadGoing) ∧ (s.conn.status ≠ .connected → s.SocketsClosed ∧ s.ThreadsJoined)
  | .opening | .failing _ | .finishing _ => s.SocketsClosed ∧ s.ThreadsJoined
  | .opened _ | .ready | .closing _ => s.SocketOpen ∧ s.ThreadsJoined
  | .creating _ => s.conn.status = .connected ∧ s.SocketOpen ∧ s.ThreadsJoined
  | .joining _ => s.SocketOpen ∧ s.ThreadGoing

/-- The caller is in no call, or in the callback at the end of one. -/
def Resting : CallPlace → Prop
  | .idle | .announcing | .notifying _ => True
  | _ => False

structure Accounted (s : Sessions) : Prop where
  accounts : s.Accounts (s.calls 0)
  alive : ∀ k, s.Alive k → s.thread = some k ∧ ((Resting (s.calls 0) ∧ s.conn.status = .connected) ∨ ∃ n, s.calls 0 = .joining n)

/-- A thread that nobody will join. -/
def Leaked (s : Sessions) : Prop :=
  ∃ k, k < s.made ∧ k ∉ s.joined ∧
    (s.thread = some k → ¬ Disconnecting (s.calls 0) ∧ (s.conn.status = .connected → Unattended (s.calls 0)))

variable {s s' : Sessions} {t k n : Nat} {p : CallPlace}

theorem SocketOpen.close (h : s.SocketOpen) : s.closeSocket.SocketsClosed := by
  obtain ⟨n, hfd, hopened, hclosed⟩ := h
  unfold SocketsClosed ClosedTo
  have hadd : s.closeSocket.closed = s.closed ++ [s.conn.socketFd] := by
    refine if_neg ?_
    rw [hfd]
    exact Int.not_lt.mpr (Int.natCast_nonneg n)
  rw [hadd, hclosed, hfd, show s.closeSocket.opened = n + 1 from hopened, List.range_succ, List.map_append]
  rfl

/-- With everything closed and joined, each was once. -/
theorem balanced_of_accounts (hsockets : s.SocketsClosed) (hthreads : s.ThreadsJoined) : s.Balanced := by
  refine ⟨fun n hn => ?_, fun k hk => ?_⟩
  · rw [show s.closed = (List.range s.opened).map Int.ofNat from hsockets]
    refine List.count_eq_one_of_mem ?_ (List.mem_map.mpr ⟨n, List.mem_range.mpr hn, rfl⟩)
    exact List.nodup_range.map fun _ _ => Int.ofNat.inj
  · rw [show s.joined = List.range s.made from hthreads]
    exact List.count_eq_one_of_mem List.nodup_range (List.mem_range.mpr hk)

theorem Leaked.unbalanced (h : s.Leaked) : ¬ s.Balanced := by
  obtain ⟨k, hmade, hjoined, -⟩ := h
  intro hb
  have hone := hb.threads k hmade
  rw [List.count_eq_zero.mpr hjoined] at hone
  exact absurd hone Nat.zero_ne_one

/-! ## The caller's steps -/

theorem Accounted.noneAlive (h : s.Accounted) (hrest : Resting (s.calls 0) → s.conn.status ≠ .connected)
    (hjoining : ∀ n, s.calls 0 ≠ .joining n) : ∀ k, ¬ s.Alive k := by
  intro k hk
  rcases (h.alive k hk).2 with ⟨hp, hc⟩ | ⟨n, hp⟩
  · exact hrest hp hc
  · exact hjoining n hp

theorem Accounted.placed (h : s.Accounted) (hp : s.calls 0 = p) : s.Accounts p := by
  rw [← hp]
  exact h.accounts

theorem accounted_of (hp : s.calls 0 = p) (haccounts : s.Accounts p)
    (halive : ∀ k, s.Alive k → s.thread = some k ∧ ((Resting p ∧ s.conn.status = .connected) ∨ ∃ n, p = .joining n)) :
    s.Accounted := by
  subst hp
  exact ⟨haccounts, halive⟩

/-- With no receiver about, the accounts are all there is. -/
theorem accounted_at (hp : s.calls 0 = p) (haccounts : s.Accounts p) (hnone : ∀ k, ¬ s.Alive k) : s.Accounted :=
  accounted_of hp haccounts fun k hk => absurd hk (hnone k)

/-- The callback at the end of a call returns. -/
theorem called_back (h : s.Accounted) (hp : s.calls 0 = .announcing ∨ ∃ n, s.calls 0 = .notifying n) : (s.go 0 .idle).Accounted := by
  have haccounts : s.Accounts .idle := by
    rcases hp with hp | ⟨n, hp⟩
    · exact (h.placed hp : s.Accounts .announcing)
    · exact (h.placed hp : s.Accounts (.notifying n))
  refine ⟨haccounts, fun k hk => ?_⟩
  obtain ⟨hthread, ⟨-, hc⟩ | ⟨n, hjoining⟩⟩ := h.alive k hk
  · exact ⟨hthread, Or.inl ⟨trivial, hc⟩⟩
  · rcases hp with hp | ⟨m, hp⟩
    · cases hp.symm.trans hjoining
    · cases hp.symm.trans hjoining

theorem connectBegins_accounted (h : s.Accounted) : (connectBegins s 0).Accounted := by
  unfold connectBegins
  split
  next hidle =>
    split
    · exact h
    next hfree =>
      have hnot : s.conn.status ≠ .connected := fun hc => hfree (Or.inl hc)
      exact accounted_at rfl ((h.placed hidle).2 hnot) (h.noneAlive (fun _ => hnot) (by simp [hidle]))
  · exact h

theorem disconnectCalled_accounted (h : s.Accounted) : (disconnectCalled s 0).Accounted := by
  unfold disconnectCalled
  split
  next hidle =>
    split
    · exact h
    next hc =>
      exact accounted_of (p := .joining (s.reached - 1)) rfl ((h.placed hidle).1 (of_not_not hc))
        fun k hk => ⟨(h.alive k hk).1, Or.inr ⟨_, rfl⟩⟩
  · exact h

/-- The call is over, and the receiver there is now is the one just made. -/
theorem creating_accounted (h : s.Accounted) (hp : s.calls 0 = .creating n) : (callStep s 0 true).Accounted := by
  have hnone := h.noneAlive (by simp [hp, Resting]) (by simp [hp])
  obtain ⟨hconnected, hopen, hjoined⟩ : s.conn.status = .connected ∧ s.SocketOpen ∧ s.ThreadsJoined := h.placed hp
  simp only [callStep, hp, if_true]
  refine accounted_of (p := .announcing) rfl ?_ ?_
  · exact ⟨fun _ => ⟨hopen, s.made, rfl, rfl, hjoined⟩, fun hc => absurd hconnected hc⟩
  · intro k hk
    by_cases hmade : k = s.made
    · subst hmade
      exact ⟨rfl, Or.inl ⟨trivial, hconnected⟩⟩
    · refine absurd ?_ (hnone k)
      have hsame : Function.update s.receivers s.made ⟨n, .looking⟩ k = s.receivers k := Function.update_of_ne hmade ..
      rw [Alive, ← hsame]
      exact hk

theorem callStep_accounted (h : s.Accounted) (ok : Bool) : (callStep s 0 ok).Accounted := by
  cases hp : s.calls 0 with
  | idle =>
    rw [show callStep s 0 ok = s by simp only [callStep, hp]]
    exact h
  | opening =>
    have hnone := h.noneAlive (by simp [hp, Resting]) (by simp [hp])
    obtain ⟨hclosed, hjoined⟩ : s.SocketsClosed ∧ s.ThreadsJoined := h.placed hp
    simp only [callStep, hp]
    cases ok with
    | true => exact accounted_at (p := .opened .resolve) rfl ⟨⟨s.opened, rfl, rfl, hclosed⟩, hjoined⟩ hnone
    | false => exact accounted_at (p := .failing .noSocket) rfl ⟨hclosed, hjoined⟩ hnone
  | opened stage =>
    have hnone := h.noneAlive (by simp [hp, Resting]) (by simp [hp])
    obtain ⟨hopen, hjoined⟩ : s.SocketOpen ∧ s.ThreadsJoined := h.placed hp
    simp only [callStep, hp]
    cases ok with
    | true =>
      refine accounted_at (p := afterStage stage) rfl ?_ hnone
      cases stage <;> exact ⟨hopen, hjoined⟩
    | false => exact accounted_at (p := .failing .noPeer) rfl ⟨hopen.close, hjoined⟩ hnone
  | ready =>
    have hnone := h.noneAlive (by simp [hp, Resting]) (by simp [hp])
    simp only [callStep, hp]
    exact accounted_at (p := .creating s.reached) rfl ⟨rfl, h.placed hp⟩ hnone
  | creating n =>
    have hnone := h.noneAlive (by simp [hp, Resting]) (by simp [hp])
    obtain ⟨hconnected, hopen, hjoined⟩ : s.conn.status = .connected ∧ s.SocketOpen ∧ s.ThreadsJoined := h.placed hp
    cases ok with
    | true => exact creating_accounted h hp
    | false =>
      simp only [callStep, hp]
      exact accounted_at (p := .failing .noThread) rfl ⟨hopen.close, hjoined⟩ hnone
  | announcing =>
    simp only [callStep, hp]
    exact called_back h (Or.inl hp)
  | failing exit =>
    have hnone := h.noneAlive (by simp [hp, Resting]) (by simp [hp])
    have hfailed : (afterExit s.conn exit).status = .failed := by cases exit <;> rfl
    have hclosed : s.SocketsClosed ∧ s.ThreadsJoined := h.placed hp
    simp only [callStep, hp]
    refine accounted_at (p := .idle) rfl ⟨fun hc => ?_, fun _ => hclosed⟩ hnone
    exact ConnectionStatus.noConfusion (hfailed.symm.trans hc)
  | joining n =>
    obtain ⟨hopen, k, hthread, hmade, hjoined⟩ : s.SocketOpen ∧ s.ThreadGoing := h.placed hp
    simp only [callStep, hp, hthread]
    split
    next hexited =>
      have hnone : ∀ j, ¬ s.Alive j := by
        intro j hj
        rw [Option.some.inj (hthread.symm.trans (h.alive j hj).1)] at hexited
        exact hj.2 hexited
      refine accounted_at (p := .closing n) rfl ⟨hopen, ?_⟩ hnone
      unfold ThreadsJoined
      rw [show s.joined ++ [k] = List.range (k + 1) by rw [hjoined, List.range_succ]]
      exact congrArg List.range hmade.symm
    next => exact h
  | closing n =>
    have hnone := h.noneAlive (by simp [hp, Resting]) (by simp [hp])
    obtain ⟨hopen, hjoined⟩ : s.SocketOpen ∧ s.ThreadsJoined := h.placed hp
    simp only [callStep, hp]
    exact accounted_at (p := .finishing n) rfl ⟨hopen.close, hjoined⟩ hnone
  | finishing n =>
    have hnone := h.noneAlive (by simp [hp, Resting]) (by simp [hp])
    have hclosed : s.SocketsClosed ∧ s.ThreadsJoined := h.placed hp
    simp only [callStep, hp]
    exact accounted_at (p := .notifying n) rfl ⟨ConnectionStatus.noConfusion, fun _ => hclosed⟩ hnone
  | notifying n =>
    simp only [callStep, hp]
    exact called_back (s := s.notify n) ⟨h.accounts, h.alive⟩ (Or.inr ⟨n, hp⟩)

/-! ## The receivers' steps -/

/-- What a receiver's step leaves as it is when it takes note of no loss. -/
theorem receiverGo_accounted {q : ReceiverPlace} (h : s.Accounted) (hk : s.Alive k ∨ q = .exited) : (s.receiverGo k q).Accounted :=
  ⟨h.accounts, fun j hj => h.alive j (receiverGo_alive (hk.imp_right Or.inr) hj)⟩

/-- The disconnect that waits for the receiver releases everything still. -/
theorem losing_accounted (h : s.Accounted) (hk : (s.receivers k).place = .losing) (hp : Disconnecting (s.calls 0)) :
    ((s.setConn { s.conn with running := 0, status := .disconnected }).receiverGo k .notifying).Accounted := by
  have hjoining : ∃ n, s.calls 0 = .joining n := by
    rcases (h.alive k (by simp [Alive, hk])).2 with ⟨hrest, -⟩ | hjoining
    · cases hcall : s.calls 0 <;> simp [hcall, Resting, Disconnecting] at hrest hp
    · exact hjoining
  obtain ⟨n, hn⟩ := hjoining
  have haccounts : s.SocketOpen ∧ s.ThreadGoing := h.placed hn
  refine accounted_of (p := .joining n) hn haccounts fun j hj => ?_
  have halive : s.Alive j :=
    receiverGo_alive (s := s.setConn { s.conn with running := 0, status := .disconnected }) (Or.inr (Or.inl rfl)) hj
  exact ⟨(h.alive j halive).1, Or.inr ⟨n, rfl⟩⟩

/-- Without one, the status keeps every later disconnect from joining the thread. -/
theorem losing_leaks (h : s.Accounted) (hk : (s.receivers k).place = .losing) (hp : ¬ Disconnecting (s.calls 0)) :
    ((s.setConn { s.conn with running := 0, status := .disconnected }).receiverGo k .notifying).Leaked := by
  obtain ⟨hthread, ⟨hrest, hc⟩ | ⟨n, hn⟩⟩ := h.alive k (by simp [Alive, hk])
  · have hgoing : s.ThreadGoing := by
      have haccounts := h.accounts
      cases hcall : s.calls 0 <;> simp only [hcall, Resting] at hrest haccounts <;> exact (haccounts.1 hc).2
    obtain ⟨k', hthread', hmade, hjoined⟩ := hgoing
    obtain rfl : k' = k := Option.some.inj (hthread'.symm.trans hthread)
    refine ⟨k', ?_, ?_, fun _ => ⟨hp, ConnectionStatus.noConfusion⟩⟩
    · exact hmade ▸ Nat.lt_succ_self k'
    · intro hmem
      have hmem : k' ∈ s.joined := hmem
      rw [hjoined] at hmem
      exact Nat.lt_irrefl k' (List.mem_range.mp hmem)
  · exact absurd (by rw [hn]; trivial) hp

theorem receiverThreadStep_accounted (h : s.Accounted) (k : Nat) (result : ReceiveResult)
    (hok : (s.receivers k).place = .losing → Disconnecting (s.calls 0)) : (receiverThreadStep s k result).Accounted := by
  unfold receiverThreadStep
  cases hk : (s.receivers k).place with
  | looking =>
    have halive : s.Alive k := by simp [Alive, hk]
    simp only []
    split
    · exact receiverGo_accounted h (Or.inl halive)
    · exact receiverGo_accounted h (Or.inl halive)
  | receiving =>
    have halive : s.Alive k := by simp [Alive, hk]
    cases result with
    | message | failed | lost => exact receiverGo_accounted h (Or.inl halive)
  | losing => exact losing_accounted h hk (hok hk)
  | notifying => exact receiverGo_accounted (s := s.notify (s.receivers k).session) ⟨h.accounts, h.alive⟩ (Or.inr rfl)
  | exited => exact h

/-! ## A leak lasts -/

/-- Nothing is joined, and a disconnect gets under way, or CONNECTED comes about, only as the
    calls let it. -/
theorem Leaked.stays {q : CallPlace} (h : s.Leaked) (hp : s.calls 0 = p) (hq : s'.calls 0 = q) (hmade : s'.made = s.made)
    (hjoined : s'.joined = s.joined) (hthread : s'.thread = s.thread)
    (hdisconnecting : Disconnecting q → Disconnecting p ∨ (s.conn.status = .connected ∧ ¬ Unattended p))
    (hconnected : s'.conn.status = .connected → Unattended q ∨ (s.conn.status = .connected ∧ ¬ Unattended p)) : s'.Leaked := by
  obtain ⟨k, hk, hnot, hlost⟩ := h
  subst hp hq
  refine ⟨k, hmade ▸ hk, hjoined ▸ hnot, fun hlast => ?_⟩
  obtain ⟨hout, hkept⟩ := hlost (hthread.symm.trans hlast)
  refine ⟨fun hin => ?_, fun hc => ?_⟩
  · rcases hdisconnecting hin with hin | ⟨hc, hattended⟩
    · exact hout hin
    · exact hattended (hkept hc)
  · rcases hconnected hc with hq | ⟨hc, hattended⟩
    · exact hq
    · exact absurd (hkept hc) hattended

theorem connectBegins_leaked (h : s.Leaked) : (connectBegins s 0).Leaked := by
  unfold connectBegins
  split
  next hidle =>
    split
    · exact h
    · exact h.stays hidle (q := .opening) rfl rfl rfl rfl False.elim ConnectionStatus.noConfusion
  · exact h

theorem disconnectCalled_leaked (h : s.Leaked) : (disconnectCalled s 0).Leaked := by
  unfold disconnectCalled
  split
  next hidle =>
    split
    · exact h
    next hc =>
      have hc : s.conn.status = .connected := of_not_not hc
      exact h.stays hidle (q := .joining (s.reached - 1)) rfl rfl rfl rfl (fun _ => Or.inr ⟨hc, id⟩) fun _ => Or.inr ⟨hc, id⟩
  · exact h

/-- A receiver made now is another. -/
theorem creating_leaked (h : s.Leaked) (hp : s.calls 0 = .creating n) : (callStep s 0 true).Leaked := by
  obtain ⟨k, hk, hnot, -⟩ := h
  simp only [callStep, hp, if_true]
  refine ⟨k, Nat.lt_succ_of_lt hk, hnot, fun hlast => ?_⟩
  exact absurd (Option.some.inj hlast).symm (Nat.ne_of_lt hk)

/-- A disconnect under way joins another. -/
theorem joining_leaked (h : s.Leaked) (hp : s.calls 0 = .joining n) (ok : Bool) : (callStep s 0 ok).Leaked := by
  obtain ⟨k, hk, hnot, hlost⟩ := h
  have hother : s.thread ≠ some k := by
    intro hlast
    refine (hlost hlast).1 ?_
    rw [hp]
    trivial
  simp only [callStep, hp]
  split
  · exact ⟨k, hk, hnot, hlost⟩
  next j hthread =>
    split
    · refine ⟨k, hk, fun hmem => ?_, fun hlast => absurd hlast hother⟩
      rcases List.mem_append.mp hmem with hmem | hmem
      · exact hnot hmem
      · rw [List.mem_singleton.mp hmem] at hother
        exact hother hthread
    · exact ⟨k, hk, hnot, hlost⟩

theorem callStep_leaked (h : s.Leaked) (ok : Bool) : (callStep s 0 ok).Leaked := by
  cases hp : s.calls 0 with
  | idle =>
    rw [show callStep s 0 ok = s by simp only [callStep, hp]]
    exact h
  | opening =>
    simp only [callStep, hp]
    cases ok with
    | true => exact h.stays hp (q := .opened .resolve) rfl rfl rfl rfl False.elim fun hc => Or.inr ⟨hc, id⟩
    | false => exact h.stays hp (q := .failing .noSocket) rfl rfl rfl rfl False.elim fun hc => Or.inr ⟨hc, id⟩
  | opened stage =>
    simp only [callStep, hp]
    cases ok with
    | true =>
      refine h.stays hp (q := afterStage stage) rfl rfl rfl rfl (fun hin => ?_) fun hc => Or.inr ⟨hc, id⟩
      cases stage <;> exact hin.elim
    | false => exact h.stays hp (q := .failing .noPeer) rfl rfl rfl rfl False.elim fun hc => Or.inr ⟨hc, id⟩
  | ready =>
    simp only [callStep, hp]
    exact h.stays hp (q := .creating s.reached) rfl rfl rfl rfl False.elim fun _ => Or.inl trivial
  | creating n =>
    cases ok with
    | true => exact creating_leaked h hp
    | false =>
      simp only [callStep, hp]
      exact h.stays hp (q := .failing .noThread) rfl rfl rfl rfl False.elim fun _ => Or.inl trivial
  | announcing =>
    simp only [callStep, hp]
    exact h.stays hp (q := .idle) rfl rfl rfl rfl False.elim fun hc => Or.inr ⟨hc, id⟩
  | failing exit =>
    have hfailed : (afterExit s.conn exit).status = .failed := by cases exit <;> rfl
    simp only [callStep, hp]
    exact h.stays hp (q := .idle) rfl rfl rfl rfl False.elim fun hc => ConnectionStatus.noConfusion (hfailed.symm.trans hc)
  | joining n => exact joining_leaked h hp ok
  | closing n =>
    simp only [callStep, hp]
    exact h.stays hp (q := .finishing n) rfl rfl rfl rfl (fun _ => Or.inl trivial) fun hc => Or.inr ⟨hc, id⟩
  | finishing n =>
    simp only [callStep, hp]
    exact h.stays hp (q := .notifying n) rfl rfl rfl rfl False.elim ConnectionStatus.noConfusion
  | notifying n =>
    simp only [callStep, hp]
    exact h.stays hp (q := .idle) rfl rfl rfl rfl False.elim fun hc => Or.inr ⟨hc, id⟩

theorem receiverThreadStep_leaked (h : s.Leaked) (k : Nat) (result : ReceiveResult) : (receiverThreadStep s k result).Leaked := by
  unfold receiverThreadStep
  cases (s.receivers k).place with
  | looking =>
    simp only []
    split
    · exact h
    · exact h
  | receiving =>
    cases result with
    | message | failed | lost => exact h
  | losing => exact h.stays rfl rfl rfl rfl rfl Or.inl ConnectionStatus.noConfusion
  | notifying | exited => exact h

end Sessions

/-! ## The owner's runs -/

namespace Ownership

open Sessions

/-- A loss is taken note of only while a disconnect waits for the receiver. -/
def LossesWaitedFor (s : Ownership) : OwnerEvent → Prop
  | .receive k _ => (s.sessions.receivers k).place = .losing → Disconnecting (s.sessions.calls 0)
  | .connect | .disconnect | .free | .step _ | .setOnDisconnect _ => True

/-- Where the caller is while `connection_free` is at a place. -/
def Ending (s : Sessions) : FreePlace → Prop
  | .notCalled => True
  | .checked => s.calls 0 = .idle
  | .disconnecting =>
    Disconnecting (s.calls 0) ∨ (s.conn.status ≠ .connected ∧ (s.calls 0 = .idle ∨ ∃ n, s.calls 0 = .notifying n))
  | .freed => s.conn.status ≠ .connected ∧ s.calls 0 = .idle

structure Sound (s : Ownership) : Prop where
  accounted : s.sessions.Accounted
  ending : Ending s.sessions s.free

variable {s : Ownership}

theorem ending_goes_on {c : Sessions} (h : Ending c .disconnecting) (hidle : c.calls 0 ≠ .idle) (ok : Bool) :
    Ending (callStep c 0 ok) .disconnecting := by
  rcases h with hin | ⟨hc, hp | ⟨n, hp⟩⟩
  · cases hp : c.calls 0 with
    | joining n =>
      simp only [callStep, hp]
      split
      · exact Or.inl hin
      · split
        · exact Or.inl trivial
        · exact Or.inl hin
    | closing n =>
      simp only [callStep, hp]
      exact Or.inl trivial
    | finishing n =>
      simp only [callStep, hp]
      exact Or.inr ⟨ConnectionStatus.noConfusion, Or.inr ⟨n, rfl⟩⟩
    | idle | opening | opened | ready | creating | announcing | failing | notifying =>
      rw [hp] at hin
      exact hin.elim
  · exact absurd hp hidle
  · simp only [callStep, hp]
    exact Or.inr ⟨hc, Or.inl rfl⟩

theorem ending_disconnects {c : Sessions} (h : c.calls 0 = .idle) : Ending (disconnectCalled c 0) .disconnecting := by
  simp only [disconnectCalled, h]
  split
  next hc => exact Or.inr ⟨hc, Or.inl h⟩
  next => exact Or.inl trivial

theorem receiverThreadStep_calls (c : Sessions) (k : Nat) (result : ReceiveResult) :
    (receiverThreadStep c k result).calls = c.calls ∧
      ((receiverThreadStep c k result).conn.status = .connected → c.conn.status = .connected) := by
  unfold receiverThreadStep
  cases (c.receivers k).place with
  | looking =>
    simp only []
    split
    · exact ⟨rfl, id⟩
    · exact ⟨rfl, id⟩
  | receiving =>
    cases result with
    | message | failed | lost => exact ⟨rfl, id⟩
  | losing => exact ⟨rfl, ConnectionStatus.noConfusion⟩
  | notifying | exited => exact ⟨rfl, id⟩

theorem ending_receives {c : Sessions} {f : FreePlace} (h : Ending c f) (k : Nat) (result : ReceiveResult) :
    Ending (receiverThreadStep c k result) f := by
  obtain ⟨hcalls, hstatus⟩ := receiverThreadStep_calls c k result
  cases f with
  | notCalled => trivial
  | checked =>
    show _ = _
    rw [hcalls]
    exact h
  | disconnecting =>
    show _ ∨ _
    rw [hcalls]
    exact h.imp_right fun hover => ⟨fun hc => hover.1 (hstatus hc), hover.2⟩
  | freed =>
    show _ ∧ _
    rw [hcalls]
    exact ⟨fun hc => h.1 (hstatus hc), h.2⟩

theorem ownerGoesOn_sound (h : s.Sound) (ok : Bool) : (ownerGoesOn s ok).Sound := by
  obtain ⟨sessions, free⟩ := s
  obtain ⟨haccounted, hending⟩ := h
  cases free with
  | notCalled => exact ⟨callStep_accounted haccounted ok, trivial⟩
  | checked => exact ⟨disconnectCalled_accounted haccounted, ending_disconnects hending⟩
  | disconnecting =>
    simp only [ownerGoesOn]
    split
    next hidle =>
      refine ⟨haccounted, ?_⟩
      rcases hending with hin | ⟨hc, -⟩
      · rw [hidle] at hin
        exact hin.elim
      · exact ⟨hc, hidle⟩
    next hidle => exact ⟨callStep_accounted haccounted ok, ending_goes_on hending hidle ok⟩
  | freed => exact ⟨haccounted, hending⟩

theorem connectionFree_sound (h : s.Sound) : (connectionFree s).Sound := by
  unfold connectionFree
  split
  next hfree hidle =>
    split
    · exact ⟨h.accounted, hidle⟩
    next hc => exact ⟨h.accounted, hc, hidle⟩
  · exact h

theorem ownerStep_sound (s : Ownership) (e : OwnerEvent) (h : s.Sound) (hok : LossesWaitedFor s e) : (ownerStep s e).Sound := by
  cases e with
  | connect =>
    simp only [ownerStep]
    split
    next hfree => exact ⟨connectBegins_accounted h.accounted, hfree ▸ trivial⟩
    · exact h
  | disconnect =>
    simp only [ownerStep]
    split
    next hfree => exact ⟨disconnectCalled_accounted h.accounted, hfree ▸ trivial⟩
    · exact h
  | free => exact connectionFree_sound h
  | step ok => exact ownerGoesOn_sound h ok
  | receive k result =>
    simp only [ownerStep]
    split
    · exact h
    · exact ⟨receiverThreadStep_accounted h.accounted k result hok, ending_receives h.ending k result⟩
  | setOnDisconnect set =>
    simp only [ownerStep]
    split
    next hfree => exact ⟨⟨h.accounted.accounts, h.accounted.alive⟩, hfree ▸ trivial⟩
    · exact h

/-- A loss nobody waits for. -/
theorem ownerStep_leaks (s : Ownership) (e : OwnerEvent) (h : s.Sound) (hok : ¬ LossesWaitedFor s e) :
    (ownerStep s e).sessions.Leaked := by
  cases e with
  | receive k result =>
    obtain ⟨hk, hp⟩ := Classical.not_imp.mp hok
    have hfree : s.free ≠ .freed := by
      intro hfree
      have hending := h.ending
      rw [hfree] at hending
      have hnone := h.accounted.noneAlive (fun _ => hending.1) (by simp [hending.2])
      exact hnone k (by simp [Alive, hk])
    simp only [ownerStep, if_neg hfree, receiverThreadStep, hk]
    exact losing_leaks h.accounted hk hp
  | connect | disconnect | free | step | setOnDisconnect => exact absurd trivial hok

theorem ownerStep_leaked (s : Ownership) (e : OwnerEvent) (h : s.sessions.Leaked) : (ownerStep s e).sessions.Leaked := by
  cases e with
  | connect =>
    simp only [ownerStep]
    split
    · exact connectBegins_leaked h
    · exact h
  | disconnect =>
    simp only [ownerStep]
    split
    · exact disconnectCalled_leaked h
    · exact h
  | free =>
    simp only [ownerStep, connectionFree]
    split
    · split
      · exact h
      · exact h
    · exact h
  | step ok =>
    simp only [ownerStep, ownerGoesOn]
    split
    · exact callStep_leaked h ok
    · exact disconnectCalled_leaked h
    · split
      · exact h
      · exact callStep_leaked h ok
    · exact h
  | receive k result =>
    simp only [ownerStep]
    split
    · exact h
    · exact receiverThreadStep_leaked h k result
  | setOnDisconnect set =>
    simp only [ownerStep]
    split
    · exact h
    · exact h

theorem newOwnership_sound : newOwnership.Sound where
  accounted := accounted_at (p := .idle) rfl ⟨ConnectionStatus.noConfusion, fun _ => ⟨rfl, rfl⟩⟩ fun _ hk => hk.2 rfl
  ending := trivial

theorem released_once_iff (es : List OwnerEvent) (h : (Run.run ownerStep newOwnership es).free = .freed) :
    (Run.run ownerStep newOwnership es).sessions.Balanced ↔ Run.Along ownerStep LossesWaitedFor newOwnership es := by
  rcases Run.along_or_harmed ownerStep_sound ownerStep_leaks ownerStep_leaked es newOwnership_sound with
    ⟨halong, hsound⟩ | ⟨halong, hleaked⟩
  · refine iff_of_true ?_ halong
    have hending := hsound.ending
    rw [h] at hending
    obtain ⟨hclosed, hjoined⟩ := (hsound.accounted.placed hending.2).2 hending.1
    exact balanced_of_accounts hclosed hjoined
  · exact iff_of_false hleaked.unbalanced halong

/-- A connect that succeeds, and its receiver in `receive_message_data`. -/
def connects : List OwnerEvent := .connect :: List.replicate 8 (.step true) ++ [.receive 0 .message]

/-- The loss comes while the disconnect waits. -/
def lostInDisconnect : List OwnerEvent :=
  connects ++ .disconnect :: List.replicate 3 (.receive 0 .lost) ++ List.replicate 4 (.step true) ++ [.free]

theorem released_once_when_waited_for : (Run.run ownerStep newOwnership lostInDisconnect).sessions.Balanced :=
  (released_once_iff lostInDisconnect rfl).mpr
    ⟨trivial, trivial, trivial, trivial, trivial, trivial, trivial, trivial, trivial, ReceiverPlace.noConfusion, trivial,
      ReceiverPlace.noConfusion, fun _ => trivial, ReceiverPlace.noConfusion, trivial, trivial, trivial, trivial, trivial, trivial⟩

/-- The loss comes on its own. -/
def lostOnItsOwn : List OwnerEvent := connects ++ List.replicate 3 (.receive 0 .lost) ++ [.free]

theorem a_lost_connection_is_never_closed :
    ¬ ∀ es, (Run.run ownerStep newOwnership es).free = .freed → (Run.run ownerStep newOwnership es).sessions.Balanced := by
  intro h
  have hcount := (h lostOnItsOwn rfl).sockets 0 (by decide)
  exact absurd hcount (by decide)

end Ownership

end RabbitMQ.Core
