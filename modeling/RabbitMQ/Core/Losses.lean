/-
  RabbitMQ.Core.Losses — when the receiver thread takes its connection for lost.

  The thread decides by `errno` after `receive_message_data` has returned NULL. A failing
  `recv` sets `errno`, and so does a refused request for memory, which does not always end the
  receive; the end of the stream, a short read and a wrong magic number leave it as it was. So
  an orderly close goes unnoticed, or is noticed by chance, and an old `errno` ends a connection
  that is sound. `ending` is how a receive came to NULL.

  The thread leaves its loop on the losses and on nothing else exactly when, at each failed
  receive, the `errno` from before tells a close from the failures that are none
  (`losses_detected_iff`, `a_close_goes_unnoticed`).
-/

import RabbitMQ.Core.Decoding
import RabbitMQ.Core.Connection
import RabbitMQ.Lib.Run

namespace RabbitMQ.Core

open Lib
open Lib.Bytes (ofLE)
open Lib.Reader (attempt reason Explains)

/-! ## How a receive ends -/

inductive Ending where
  /-- `recv` returned 0. -/
  | closed
  /-- `recv` returned -1. -/
  | error (errno : Nat)
  /-- Fewer bytes than asked for, a wrong magic number, a refused request. -/
  | other
  deriving DecidableEq, Repr

namespace Ending

/-- What is in `errno` then; `starved`: a request for memory was refused before. -/
def errnoAfter (starved : Bool) : Ending → Nat → Nat
  | .error errno, _ => errno
  | .closed, before | .other, before => if starved then ENOMEM else before

/-- The connection is no more. -/
def Loss : Ending → Prop
  | .closed => True
  | .error errno => Lost errno
  | .other => False

instance : ∀ e : Ending, Decidable e.Loss
  | .closed => inferInstanceAs (Decidable True)
  | .error errno => inferInstanceAs (Decidable (Lost errno))
  | .other => inferInstanceAs (Decidable False)

/-- `errno` tells a loss from what is none. -/
def Tells (starved : Bool) (before : Nat) : Ending → Prop
  | .closed => starved = false ∧ Lost before
  | .error _ => True
  | .other => starved = false → ¬ Lost before

instance (starved : Bool) (before : Nat) : ∀ e : Ending, Decidable (e.Tells starved before)
  | .closed => inferInstanceAs (Decidable (starved = false ∧ Lost before))
  | .error _ => inferInstanceAs (Decidable True)
  | .other => inferInstanceAs (Decidable (starved = false → ¬ Lost before))

theorem lost_iff (e : Ending) (starved : Bool) (before : Nat) :
    (Lost (e.errnoAfter starved before) ↔ e.Loss) ↔ e.Tells starved before := by
  have henomem : ¬ Lost ENOMEM := by decide
  cases e with
  | error errno => exact iff_of_true Iff.rfl trivial
  | closed =>
    cases starved with
    | true => exact iff_of_false (fun h => henomem (h.mpr trivial)) fun h => Bool.noConfusion h.1
    | false => exact (iff_true_right trivial).trans (and_iff_right rfl).symm
  | other =>
    cases starved with
    | true => exact iff_of_true (iff_of_false henomem id) fun h => Bool.noConfusion h
    | false => exact (iff_false_right id).trans ⟨fun h _ => h, fun h => h rfl⟩

end Ending

/-- A `recv` that returned other than `n`. -/
def readEnding (n : Nat) (w : World) : Ending :=
  match recv n w with
  | (none, w) => .error w.errno
  | (some got, _) => if got = [] then .closed else .other

def stringEnding (w : World) : Ending :=
  reason (recvFull 4 w) (readEnding 4 w) fun len w =>
  let len := UInt32.ofNat (ofLE len)
  match malloc w.heap (len + 1).toNat with
  | (none, _) => .other
  | (some _, heap) => readEnding len.toNat { w with heap }

def bodyEnding (w : World) : Ending :=
  reason (recvFull 4 w) (readEnding 4 w) fun size w =>
  let size := UInt32.ofNat (ofLE size)
  if 0 < size then
    match malloc w.heap size.toNat with
    | (none, _) => .other
    | (some _, heap) => readEnding size.toNat { w with heap }
  else .other

def propertiesEnding (w : World) : Ending :=
  reason (recvFull 4 w) (readEnding 4 w) fun _ w =>
  reason (recvFull 8 w) (readEnding 8 w) fun _ w =>
  readEnding 1 w

/-- How a `receive_message_data` that returns NULL ends. -/
def ending (fd : Int) (w : World) : Ending :=
  if fd < 0 then .other else
  reason (recvFull 4 w) (readEnding 4 w) fun magic w =>
  if UInt32.ofNat (ofLE magic) ≠ MESSAGE_MAGIC then .other else
  reason (recvString [] w) (stringEnding w) fun exchange w =>
  reason (recvString [exchange.1] w) (stringEnding w) fun routingKey w =>
  reason (recvBody [exchange.1, routingKey.1] w) (bodyEnding w) fun body w =>
  reason (recvCreate exchange routingKey body w) .other fun _ w => propertiesEnding w

/-! ## What a receive leaves in `errno` -/

/-- A request refused is in `errno`, or `errno` is as it was. -/
structure Passes (w w' : World) : Prop where
  next : w.heap.next ≤ w'.heap.next
  fails : w'.heap.fails = w.heap.fails
  errno : w'.errno = if w.heap.Refused w'.heap then ENOMEM else w.errno

/-- The same, or the last `recv` has failed. -/
def Ends : Ending → World → World → Prop
  | .error errno, _, w' => w'.errno = errno
  | .closed, w, w' | .other, w, w' => Passes w w'

abbrev SetsErrno {γ : Type} (f : World → Option γ × World) (why : World → Ending) : Prop := Explains Passes Ends f why

theorem passes_quiet {w w' : World} (hnext : w'.heap.next = w.heap.next) (hfails : w'.heap.fails = w.heap.fails)
    (herrno : w'.errno = w.errno) : Passes w w' :=
  ⟨hnext.ge, hfails, herrno.trans (if_neg (Alloc.Heap.not_refused hnext)).symm⟩

theorem Passes.trans {w w' w'' : World} (h : Passes w w') (h' : Passes w' w'') : Passes w w'' := by
  refine ⟨h.next.trans h'.next, h'.fails.trans h.fails, ?_⟩
  have hboth := Alloc.Heap.refused_trans h.fails h.next h'.next
  rw [h'.errno, h.errno]
  by_cases hlater : w'.heap.Refused w''.heap
  · rw [if_pos hlater, if_pos (hboth.mpr (Or.inr hlater))]
  · rw [if_neg hlater]
    by_cases hbefore : w.heap.Refused w'.heap
    · rw [if_pos hbefore, if_pos (hboth.mpr (Or.inl hbefore))]
    · rw [if_neg hbefore, if_neg fun hr => (hboth.mp hr).elim hbefore hlater]

theorem Passes.ends {e : Ending} {w w' w'' : World} (h : Passes w w') (h' : Ends e w' w'') : Ends e w w'' := by
  cases e with
  | error errno => exact h'
  | closed => exact h.trans h'
  | other => exact h.trans h'

/-- An exit that makes no request leaves `errno` as it is. -/
theorem Ends.exit {e : Ending} {w w' w'' : World} (h : Ends e w w') (hquiet : Passes w' w'') (herrno : w''.errno = w'.errno) :
    Ends e w w'' := by
  cases e with
  | error errno => exact herrno.trans h
  | closed => exact Passes.trans h hquiet
  | other => exact Passes.trans h hquiet

theorem ends_release (held : List Ptr) (e : Ending) (w w' : World) (h : Ends e w w') : Ends e w (release held w') :=
  h.exit (passes_quiet rfl rfl rfl) rfl

theorem passes_malloc {w : World} {n : Nat} {o : Option Ptr} {heap : Heap} (e : malloc w.heap n = (o, heap)) :
    Passes w { w with heap, errno := if o.isSome then w.errno else ENOMEM } := by
  obtain ⟨hnext, hfails, -⟩ := Alloc.Heap.grants_request e
  refine ⟨hnext ▸ Nat.le_succ _, hfails, ?_⟩
  have hrefused := Alloc.Heap.refused_request e
  cases o with
  | none => exact (if_pos (hrefused.mpr rfl)).symm
  | some buf => exact (if_neg fun hr => Option.some_ne_none buf (hrefused.mp hr)).symm

theorem recv_passes {n : Nat} {w w' : World} {got : Option Bytes} (h : recv n w = (got, w')) (hgot : got ≠ none) :
    Passes w w' := by
  cases hout : w.inlet.outcome w.inlet.calls with
  | upTo k =>
    simp only [recv, hout] at h
    cases h
    exact passes_quiet rfl rfl rfl
  | error errno =>
    simp only [recv, hout] at h
    cases h
    exact absurd rfl hgot

theorem recvFull_sets (n : Nat) : SetsErrno (recvFull n) (readEnding n) := by
  intro w
  unfold recvFull readEnding
  cases e : recv n w with
  | mk got w1 =>
  cases got with
  | none =>
    constructor
    · intro v w' h
      cases h
    · intro w' h
      cases h
      rfl
  | some got =>
    have hkept : Passes w w1 := recv_passes e (Option.some_ne_none got)
    constructor
    · intro v w' h
      rw [← (Prod.mk.inj h).2]
      exact hkept
    · intro w' h
      rw [← (Prod.mk.inj h).2]
      by_cases hnil : got = []
      · simp only [if_pos hnil]
        exact hkept
      · simp only [if_neg hnil]
        exact hkept

theorem recvInto_sets (buf : Ptr) (n : Nat) : SetsErrno (recvInto buf n) (readEnding n) := by
  intro w
  obtain ⟨hkept, hwhy⟩ := recvFull_sets n w
  constructor
  · intro v w' h
    cases h' : recvFull n w with
    | mk o w1 =>
    simp only [recvInto, h'] at h
    cases h
    exact (hkept v w1 h').trans (passes_quiet rfl rfl rfl)
  · intro w' h
    cases h' : recvFull n w with
    | mk o w1 =>
    simp only [recvInto, h'] at h
    cases h
    exact (hwhy w1 h').exit (passes_quiet rfl rfl rfl) rfl

/-- A request for memory between two reads. -/
theorem sets_malloc {γ : Type} {n : Nat} {f : World → Option γ × World} {g : Ptr → World → Option γ × World}
    {why why' : World → Ending} (held : List Ptr)
    (hnone : ∀ w heap, malloc w.heap n = (none, heap) →
      f w = (none, release held { w with heap, errno := ENOMEM }) ∧ why w = .other)
    (hsome : ∀ w buf heap, malloc w.heap n = (some buf, heap) → f w = g buf { w with heap } ∧ why w = why' { w with heap })
    (hg : ∀ buf, SetsErrno (g buf) why') : SetsErrno f why := by
  intro w
  cases e : malloc w.heap n with
  | mk buf heap =>
  have hpasses := passes_malloc e
  cases buf with
  | none =>
    obtain ⟨hf, hother⟩ := hnone w heap e
    rw [hf, hother]
    constructor
    · intro v w' h
      cases h
    · intro w' h
      cases h
      exact ends_release held .other w _ hpasses
  | some buf =>
    obtain ⟨hf, hwhy⟩ := hsome w buf heap e
    obtain ⟨hkept, hends⟩ := hg buf { w with heap }
    rw [hf, hwhy]
    exact ⟨fun v w' h => Passes.trans hpasses (hkept v w' h), fun w' h => Passes.ends hpasses (hends w' h)⟩

theorem sets_done {γ : Type} {f : World → Option γ × World} {why : World → Ending}
    (h : ∀ w, ∃ v w', f w = (some v, w') ∧ Passes w w') : SetsErrno f why := by
  intro w
  obtain ⟨u, w1, e, hkept⟩ := h w
  rw [e]
  constructor
  · intro v w' h
    rw [← (Prod.mk.inj h).2]
    exact hkept
  · intro w' h
    cases h

theorem sets_attempt {γ δ : Type} {f : World → Option γ × World} {why : World → Ending} {exit : World → World}
    {k : γ → World → Option δ × World} {why' : γ → World → Ending} (hf : SetsErrno f why)
    (hexit : ∀ e w w', Ends e w w' → Ends e w (exit w')) (hk : ∀ v, SetsErrno (k v) (why' v)) :
    SetsErrno (fun w => attempt (f w) exit k) fun w => reason (f w) (why w) why' := by
  refine Reader.explains_attempt ?_ ?_ hf hexit hk
  · exact Passes.trans
  · exact Passes.ends

theorem sets_attempt_done {γ δ : Type} {f : World → Option γ × World} {why : World → Ending} {exit : World → World}
    {k : γ → World → Option δ × World} (hf : SetsErrno f why) (hexit : ∀ e w w', Ends e w w' → Ends e w (exit w'))
    (hk : ∀ v w, ∃ u w', k v w = (some u, w') ∧ Passes w w') : SetsErrno (fun w => attempt (f w) exit k) why := by
  refine Reader.explains_attempt_done ?_ hf hexit hk
  exact Passes.trans

theorem recvString_sets (held : List Ptr) : SetsErrno (recvString held) stringEnding := by
  refine sets_attempt (recvFull_sets 4) (ends_release held) fun len => ?_
  refine sets_malloc held (n := (UInt32.ofNat (ofLE len) + 1).toNat)
    (g := fun buf w => attempt (recvInto buf (UInt32.ofNat (ofLE len)).toNat w) (release (held ++ [buf])) fun bytes w =>
      (some (buf, CString.ofBuffer bytes), { w with writes := w.writes ++ [(buf, (UInt32.ofNat (ofLE len)).toNat + 1)] }))
    (fun w heap e => ?_) (fun w buf heap e => ?_) fun buf =>
      sets_attempt_done (recvInto_sets buf _) (ends_release _) fun bytes w => ⟨_, _, rfl, passes_quiet rfl rfl rfl⟩
  · simp only [e]
    exact ⟨trivial, trivial⟩
  · simp only [e]
    exact ⟨trivial, trivial⟩

theorem recvBody_sets (held : List Ptr) : SetsErrno (recvBody held) bodyEnding := by
  refine sets_attempt (recvFull_sets 4) (ends_release held) fun size => ?_
  by_cases hpos : 0 < UInt32.ofNat (ofLE size)
  · simp only [if_pos hpos]
    refine sets_malloc held (n := (UInt32.ofNat (ofLE size)).toNat)
      (g := fun buf w => attempt (recvInto buf (UInt32.ofNat (ofLE size)).toNat w) (release (held ++ [buf])) fun bytes w =>
        (some (UInt32.ofNat (ofLE size), some (buf, bytes)), w))
      (fun w heap e => ?_) (fun w buf heap e => ?_) fun buf =>
        sets_attempt_done (recvInto_sets buf _) (ends_release _) fun bytes w => ⟨_, _, rfl, passes_quiet rfl rfl rfl⟩
    · simp only [e]
      exact ⟨trivial, trivial⟩
    · simp only [e]
      exact ⟨trivial, trivial⟩
  · simp only [if_neg hpos]
    exact sets_done fun w => ⟨_, _, rfl, passes_quiet rfl rfl rfl⟩

/-- `message_create` makes up to four requests, of which the two for the strings may be
    refused without its failing. -/
theorem recvCreate_sets (exchange routingKey : Ptr × CString) (body : UInt32 × Option (Ptr × Bytes)) :
    SetsErrno (recvCreate exchange routingKey body) fun _ => .other := by
  intro w
  obtain ⟨granted, gone, hentry⟩ := create_ledger (some exchange.2) (some routingKey.2) (body.2.map (·.2)) body.1.toUInt64 w.heap
  have hpasses : Passes w (recvCreate exchange routingKey body w).2 := ⟨hentry.next, hentry.fails, rfl⟩
  constructor
  · intro m w' h
    rw [h] at hpasses
    exact hpasses
  · intro w' h
    rw [h] at hpasses
    exact hpasses

theorem recvProperties_sets (m : Message) : SetsErrno (recvProperties m) propertiesEnding := by
  have hexit : ∀ e w w', Ends e w w' → Ends e w { w' with heap := messageFree m w'.heap } :=
    fun e w w' h => h.exit (passes_quiet rfl rfl rfl) rfl
  exact sets_attempt (recvFull_sets 4) hexit fun _ => sets_attempt (recvFull_sets 8) hexit fun _ =>
    sets_attempt_done (recvFull_sets 1) hexit fun _ _ => ⟨_, _, rfl, passes_quiet rfl rfl rfl⟩

/-- What a receive that fails leaves in `errno`. -/
theorem receive_sets (fd : Int) : SetsErrno (receiveMessageData fd) (ending fd) := by
  have hquiet : ∀ (e : Ending) (w w' : World), Ends e w w' → Ends e w (id w') := fun _ _ _ h => h
  have hnothing : SetsErrno (fun w => ((none, w) : Option Message × World)) fun _ => .other := by
    intro w
    constructor
    · intro m w' h
      cases h
    · intro w' h
      cases h
      exact passes_quiet rfl rfl rfl
  unfold receiveMessageData ending
  by_cases hfd : fd < 0
  · simp only [if_pos hfd]
    exact hnothing
  simp only [if_neg hfd]
  refine sets_attempt (recvFull_sets 4) hquiet fun magic => ?_
  by_cases hmagic : UInt32.ofNat (ofLE magic) ≠ MESSAGE_MAGIC
  · simp only [if_pos hmagic]
    exact hnothing
  simp only [if_neg hmagic]
  refine sets_attempt (recvString_sets _) hquiet fun exchange => ?_
  refine sets_attempt (recvString_sets _) hquiet fun routingKey => ?_
  refine sets_attempt (recvBody_sets _) hquiet fun body => ?_
  exact sets_attempt (recvCreate_sets exchange routingKey body) hquiet fun m => recvProperties_sets m

/-! ## Runs of the thread -/

/-- The receiver thread, and how each of its failed receives ended, in order. -/
structure Watch where
  receiver : Receiver
  endings : List Ending

/-- How the receive of the next turn fails, if it makes one and it does. -/
def failure (r : Receiver) : Option Ending :=
  if r.exited = true ∨ r.conn.running = 0 then none
  else if (receiveMessageData r.conn.socketFd r.world).1.isSome then none
  else some (ending r.conn.socketFd r.world)

def watchStep (s : Watch) : ReceiverEvent → Watch
  | .turn => ⟨receiverTurn s.receiver, s.endings ++ (failure s.receiver).toList⟩
  | .disconnect => ⟨disconnectBegins s.receiver, s.endings⟩
  | .errno errno => ⟨receiverStep s.receiver (.errno errno), s.endings⟩

/-- The thread has left its loop, reported the connection lost and called `on_disconnect`
    exactly when one of its receives ended by a loss. -/
structure LossesDetected (s : Watch) : Prop where
  detected : (∃ e ∈ s.endings, e.Loss) → s.receiver.exited = true ∧ s.receiver.conn.status = .disconnected ∧
    s.receiver.disconnects = if s.receiver.conn.onDisconnect then 1 else 0
  sound : (∀ e ∈ s.endings, ¬ e.Loss) → (s.receiver.exited = true → s.receiver.conn.running = 0) ∧
    s.receiver.conn.status = .connected ∧ s.receiver.disconnects = 0

/-- The receive of the next turn is refused a request for memory. -/
def starved (r : Receiver) : Bool := r.world.heap.Refused (receiveMessageData r.conn.socketFd r.world).2.heap

/-- Where the next receive fails, the `errno` from before tells what it is. -/
def ErrnoTells (s : Watch) : ReceiverEvent → Prop
  | .turn => ∀ e ∈ failure s.receiver, e.Tells (starved s.receiver) s.receiver.world.errno
  | .disconnect | .errno _ => True

instance (s : Watch) : ∀ e, Decidable (ErrnoTells s e)
  | .turn => inferInstanceAs (Decidable (∀ e ∈ failure s.receiver, e.Tells (starved s.receiver) s.receiver.world.errno))
  | .disconnect | .errno _ => inferInstanceAs (Decidable True)

/-- A turn whose receive fails goes by what the receive leaves in `errno`. -/
theorem turn_fails {r : Receiver} {e : Ending} (h : failure r = some e) : r.exited = false ∧ ∃ world,
    receiverTurn r =
      if Lost (e.errnoAfter (starved r) r.world.errno) then
        { r with world, conn := { r.conn with running := 0, status := .disconnected }, exited := true,
                 disconnects := r.disconnects + if r.conn.onDisconnect then 1 else 0 }
      else { r with world } := by
  unfold failure at h
  split at h
  · cases h
  rename_i hlooks
  obtain ⟨hexit, hrun⟩ := not_or.mp hlooks
  cases hrecv : receiveMessageData r.conn.socketFd r.world with
  | mk received world =>
  rw [hrecv] at h
  cases received with
  | some m => cases h
  | none =>
    cases h
    have hends := (receive_sets r.conn.socketFd r.world).2 world hrecv
    have herrno : world.errno = (ending r.conn.socketFd r.world).errnoAfter (starved r) r.world.errno := by
      have hstarved : starved r = decide (r.world.heap.Refused world.heap) := by rw [starved, hrecv]
      rw [hstarved]
      cases he : ending r.conn.socketFd r.world with
      | error errno =>
        rw [he] at hends
        exact hends
      | closed =>
        rw [he] at hends
        rw [hends.errno]
        simp only [Ending.errnoAfter, decide_eq_true_eq]
      | other =>
        rw [he] at hends
        rw [hends.errno]
        simp only [Ending.errnoAfter, decide_eq_true_eq]
    refine ⟨by simpa using hexit, world, ?_⟩
    simp only [receiverTurn, if_neg hexit, if_neg hrun, hrecv, herrno]

/-- Any other turn leaves the status as it was, and ends the loop only where `running` is 0. -/
theorem turn_goes_on {r : Receiver} (h : failure r = none) :
    (receiverTurn r).conn = r.conn ∧ (receiverTurn r).disconnects = r.disconnects ∧
      ((receiverTurn r).exited = true → r.exited = true ∨ r.conn.running = 0) ∧
      (r.exited = true → (receiverTurn r).exited = true) := by
  unfold receiverTurn
  by_cases hexit : r.exited = true
  · rw [if_pos hexit]
    exact ⟨rfl, rfl, fun _ => Or.inl hexit, id⟩
  by_cases hrun : r.conn.running = 0
  · rw [if_neg hexit, if_pos hrun]
    exact ⟨rfl, rfl, fun _ => Or.inr hrun, fun _ => rfl⟩
  rw [failure, if_neg (not_or.mpr ⟨hexit, hrun⟩)] at h
  rw [if_neg hexit, if_neg hrun]
  cases hrecv : receiveMessageData r.conn.socketFd r.world with
  | mk received world =>
  rw [hrecv] at h
  cases received with
  | none => cases h
  | some m =>
    simp only
    split
    · exact ⟨rfl, rfl, fun he => absurd he hexit, fun he => absurd he hexit⟩
    · exact ⟨rfl, rfl, fun he => absurd he hexit, fun he => absurd he hexit⟩

theorem losses_quiet {s s' : Watch} (h : LossesDetected s) (hendings : s'.endings = s.endings)
    (hstatus : s'.receiver.conn.status = s.receiver.conn.status)
    (hcallback : s'.receiver.conn.onDisconnect = s.receiver.conn.onDisconnect)
    (hdisconnects : s'.receiver.disconnects = s.receiver.disconnects)
    (hlasts : s.receiver.exited = true → s'.receiver.exited = true)
    (hexit : s'.receiver.exited = true → s.receiver.exited = true ∨ s'.receiver.conn.running = 0)
    (hrun : s.receiver.conn.running = 0 → s'.receiver.conn.running = 0) : LossesDetected s' := by
  constructor
  · rw [hendings, hstatus, hcallback, hdisconnects]
    intro hloss
    obtain ⟨h1, h2, h3⟩ := h.detected hloss
    exact ⟨hlasts h1, h2, h3⟩
  · rw [hendings, hstatus, hdisconnects]
    intro hnone
    obtain ⟨h1, h2, h3⟩ := h.sound hnone
    refine ⟨fun he => ?_, h2, h3⟩
    rcases hexit he with he | hzero
    · exact hrun (h1 he)
    · exact hzero

/-- A failed receive is judged rightly exactly where `errno` tells what it is. -/
theorem losses_failure {s : Watch} (h : LossesDetected s) {e : Ending} (he : failure s.receiver = some e) :
    e.Tells (starved s.receiver) s.receiver.world.errno ↔ LossesDetected (watchStep s .turn) := by
  obtain ⟨hexit, world, hturn⟩ := turn_fails he
  have hnone : ∀ e ∈ s.endings, ¬ e.Loss := by
    intro d hd hloss
    rw [(h.detected ⟨d, hd, hloss⟩).1] at hexit
    cases hexit
  obtain ⟨-, hconnected, hdisconnects⟩ := h.sound hnone
  have hmem : ∀ d, d ∈ (watchStep s .turn).endings ↔ d ∈ s.endings ∨ d = e := by
    intro d
    rw [watchStep, he, Option.toList_some, List.mem_append, List.mem_singleton]
  have hloss : (∃ d ∈ (watchStep s .turn).endings, d.Loss) ↔ e.Loss := by
    constructor
    · rintro ⟨d, hd, hl⟩
      rcases (hmem d).mp hd with hd | rfl
      · exact absurd hl (hnone d hd)
      · exact hl
    · exact fun hl => ⟨e, (hmem e).mpr (Or.inr rfl), hl⟩
  rw [← Ending.lost_iff]
  have hreceiver : (watchStep s .turn).receiver = receiverTurn s.receiver := rfl
  by_cases hl : Lost (e.errnoAfter (starved s.receiver) s.receiver.world.errno)
  · rw [if_pos hl] at hturn
    rw [iff_true_left hl]
    constructor
    · intro hle
      refine ⟨fun _ => ?_, fun hno => absurd (hloss.mpr hle) (by simpa using hno)⟩
      rw [hreceiver, hturn]
      exact ⟨rfl, rfl, by simp only [hdisconnects, Nat.zero_add]⟩
    · intro hd
      by_contra hle
      obtain ⟨-, hstatus, -⟩ := hd.sound fun d hd hl => hle (hloss.mp ⟨d, hd, hl⟩)
      rw [hreceiver, hturn] at hstatus
      cases hstatus
  · rw [if_neg hl] at hturn
    rw [iff_false_left hl]
    constructor
    · intro hle
      refine ⟨fun hex => absurd (hloss.mp hex) hle, fun _ => ?_⟩
      rw [hreceiver, hturn]
      exact ⟨fun he' => absurd he' (by rw [hexit]; exact Bool.false_ne_true), hconnected, hdisconnects⟩
    · intro hd hle
      obtain ⟨hex, -, -⟩ := hd.detected (hloss.mpr hle)
      rw [hreceiver, hturn, hexit] at hex
      cases hex

theorem losses_step (s : Watch) (e : ReceiverEvent) (h : LossesDetected s) :
    ErrnoTells s e ↔ LossesDetected (watchStep s e) := by
  cases e with
  | turn =>
    unfold ErrnoTells
    cases he : failure s.receiver with
    | some e =>
      rw [← losses_failure h he]
      simp
    | none =>
      obtain ⟨hconn, hdisconnects, hexit, hlasts⟩ := turn_goes_on he
      have hendings : (watchStep s .turn).endings = s.endings := by
        rw [watchStep, he, Option.toList_none, List.append_nil]
      have hconn : (watchStep s .turn).receiver.conn = s.receiver.conn := hconn
      refine iff_of_true (fun e he => by cases he) (losses_quiet h hendings ?_ ?_ hdisconnects hlasts ?_ ?_)
      · rw [hconn]
      · rw [hconn]
      · rw [hconn]
        exact hexit
      · rw [hconn]
        exact id
  | disconnect =>
    refine iff_of_true trivial ?_
    show LossesDetected ⟨disconnectBegins s.receiver, s.endings⟩
    unfold disconnectBegins
    split
    · exact losses_quiet h rfl rfl rfl rfl id Or.inl fun _ => rfl
    · exact h
  | errno errno => exact iff_of_true trivial (losses_quiet h rfl rfl rfl rfl id Or.inl id)

/-- Whatever the peer sends and however the reads fail. -/
theorem losses_detected_iff {s : Watch} (hnew : s.endings = []) (hlooping : s.receiver.exited = false)
    (hconnected : s.receiver.conn.status = .connected) (hquiet : s.receiver.disconnects = 0) (events : List ReceiverEvent) :
    (∀ before, before <+: events → LossesDetected (Run.run watchStep s before)) ↔ Run.Along watchStep ErrnoTells s events := by
  have h0 : LossesDetected s := by
    refine ⟨fun hloss => ?_, fun _ => ⟨fun hexit => ?_, hconnected, hquiet⟩⟩
    · obtain ⟨e, he, -⟩ := hloss
      rw [hnew] at he
      cases he
    · rw [hlooping] at hexit
      cases hexit
  have hbase : ∀ (s : Watch) (e : ReceiverEvent), True → True := fun _ _ _ => trivial
  exact Run.along_iff hbase (fun s e _ h => losses_step s e h) trivial h0

/-- A thread on a connected socket, with callbacks. -/
def watchOn (w : World) : Watch := ⟨⟨⟨3, .connected, 1, true, true⟩, w, false, [], 0⟩, []⟩

/-- The peer closes and `recv` returns 0, with 0 in `errno`: the status stays CONNECTED. -/
theorem a_close_goes_unnoticed : ¬ LossesDetected (Run.run watchStep (watchOn (inletOf [] fun _ => 64)) [.turn]) := by
  intro h
  obtain ⟨-, hstatus, -⟩ := h.detected ⟨.closed, by decide, trivial⟩
  revert hstatus
  decide

/-- A message, then a reset. -/
def resetAfterOne : World :=
  { inletOf twoBytes.encode fun _ => 64 with
    inlet := ⟨twoBytes.encode, fun k => if k < twoBytes.requests.length then .upTo 64 else .error ECONNRESET, 0⟩ }

theorem losses_detected_after_a_reset :
    LossesDetected (Run.run watchStep (watchOn resetAfterOne) [.turn, .errno EPIPE, .turn, .turn]) :=
  (losses_detected_iff (s := watchOn resetAfterOne) rfl rfl rfl rfl _).mpr (by decide +kernel) _ List.prefix_rfl

end RabbitMQ.Core
