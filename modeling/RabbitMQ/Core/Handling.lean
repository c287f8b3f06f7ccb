/-
  RabbitMQ.Core.Handling — what a client's handler thread works on.

  A turn of `client_handler_thread` obtains at most one message and acts on it
  (`turn_handles`); between its turns the other threads do what they do to the server. The
  loop breaks at the first message it does not get, so it never looks for one in the middle
  of a frame: what it obtains are the first of the messages sent, unaltered and in order,
  wherever the stream ends and however the reads and the requests for memory go, as long
  as the names can be copied (`obtained_are_the_first_sent`).
-/

import RabbitMQ.Core.Decoding
import RabbitMQ.Core.Routing
import RabbitMQ.Lib.Run

namespace RabbitMQ.Core

open Lib
open Lib.Reader (Exact)

/-! ## Turns -/

/-- The thread, with the messages it obtained; no thread once it has passed a NULL string
    to `strcmp`. -/
structure Handling where
  handler : Option Handler
  obtained : List Message

/-- What `receive_message_data` returns in the next turn of the loop, if it gets there. -/
def obtains (i : Nat) (h : Handler) : Option Message :=
  if h.exited then none
  else if !(h.server.clients i).running then none
  else (receiveMessageData (h.server.clients i).fd h.world).1

inductive HandlingEvent where
  | turn
  /-- Other threads leave the server so. -/
  | meanwhile (server : Server)

def handlingStep (i : Nat) (s : Handling) : HandlingEvent → Handling
  | .turn =>
    match s.handler with
    | none => s
    | some h => ⟨clientHandlerTurn i h, s.obtained ++ (obtains i h).toList⟩
  | .meanwhile server => { s with handler := s.handler.map fun h => { h with server } }

/-- A turn works on what it obtains; when that is nothing, the loop is left. -/
theorem turn_handles (i : Nat) (h : Handler) :
    (∃ m w, receiveMessageData (h.server.clients i).fd h.world = (some m, w) ∧ obtains i h = some m ∧ h.exited = false ∧
      clientHandlerTurn i h = (handleMessage i m (h.afterRead w).server).map fun server => { h.afterRead w with server }) ∨
    (obtains i h = none ∧ ∃ h', clientHandlerTurn i h = some h' ∧ h'.exited = true) := by
  unfold obtains clientHandlerTurn
  by_cases hexit : h.exited = true
  · rw [if_pos hexit, if_pos hexit]
    exact Or.inr ⟨rfl, h, rfl, hexit⟩
  rw [if_neg hexit, if_neg hexit]
  by_cases hrun : (!(h.server.clients i).running) = true
  · rw [if_pos hrun, if_pos hrun]
    exact Or.inr ⟨rfl, _, rfl, rfl⟩
  rw [if_neg hrun, if_neg hrun]
  cases e : receiveMessageData (h.server.clients i).fd h.world with
  | mk m w =>
  cases m with
  | none => exact Or.inr ⟨rfl, _, rfl, rfl⟩
  | some m => exact Or.inl ⟨m, w, rfl, rfl, by simpa using hexit, rfl⟩

/-! ## At a frame's start -/

/-- While the thread is in its loop it stands at the start of a frame; it obtained those
    before. -/
def AtStart (sent : List Frame) (s : Handling) : Prop :=
  ∃ done left, sent = done ++ left ∧ s.obtained.map (·.toFields) = done.map Frame.fields ∧
    ∀ h, s.handler = some h → h.exited = false → h.inlet.input <+: left.flatMap Frame.encode

/-- The names of the message obtained could be copied. -/
def NamesCopied (i : Nat) (s : Handling) : HandlingEvent → Prop
  | .turn => ∀ h ∈ s.handler, ∀ m ∈ obtains i h, Named m.toFields
  | .meanwhile _ => True

instance (i : Nat) (s : Handling) : ∀ e, Decidable (NamesCopied i s e)
  | .turn => inferInstanceAs (Decidable (∀ h ∈ s.handler, ∀ m ∈ obtains i h, Named m.toFields))
  | .meanwhile _ => inferInstanceAs (Decidable True)

/-- A message read from some first bytes of frames is the first frame's. -/
theorem first_frame {input rest : Bytes} {left : List Frame} {v : Fields} (hinput : input <+: left.flatMap Frame.encode)
    (hv : decode input = (some v, rest)) :
    ∃ f fs, left = f :: fs ∧ v = f.fields ∧ rest <+: fs.flatMap Frame.encode := by
  cases left with
  | nil =>
    have hnil : input = [] := List.prefix_nil.mp hinput
    rw [hnil] at hv
    cases hv
  | cons f fs =>
    have hwhole : decode ((f :: fs).flatMap Frame.encode) = (some f.fields, fs.flatMap Frame.encode) := decode_frame f _
    obtain ⟨hv, hrest⟩ := Reader.exact_prefix decode_exact hinput hv hwhole
    exact ⟨f, fs, rfl, hv, hrest⟩

theorem atStart_turn {i : Nat} {sent : List Frame} {s : Handling} {h : Handler} (hs : AtStart sent s) (hh : s.handler = some h)
    (hnamed : ∀ m ∈ obtains i h, Named m.toFields) :
    AtStart sent ⟨clientHandlerTurn i h, s.obtained ++ (obtains i h).toList⟩ := by
  obtain ⟨done, left, hsent, hgot, hat⟩ := hs
  rcases turn_handles i h with ⟨m, w, hread, hm, hin, hturn⟩ | ⟨hnone, h', hturn, hout⟩
  · obtain ⟨v, hv, hcopy⟩ := received hread
    obtain ⟨f, fs, rfl, rfl, hrest⟩ := first_frame (hat h hh hin) hv
    have hfields : m.toFields = f.fields := hcopy.eq (hnamed m hm)
    refine ⟨done ++ [f], fs, by rw [hsent, List.append_assoc, List.singleton_append], ?_, ?_⟩
    · rw [hm, Option.toList_some, List.map_append, List.map_append, hgot, List.map_singleton, List.map_singleton, hfields]
    · intro h' hh' _
      rw [hturn] at hh'
      obtain ⟨server, -, rfl⟩ := Option.map_eq_some_iff.mp hh'
      exact hrest
  · refine ⟨done, left, hsent, ?_, ?_⟩
    · rw [hnone, Option.toList_none, List.append_nil]
      exact hgot
    · intro h'' hh'' hin
      rw [hturn, Option.some.injEq] at hh''
      rw [← hh'', hout] at hin
      cases hin

theorem atStart_step {i : Nat} {sent : List Frame} (s : Handling) (e : HandlingEvent) (hs : AtStart sent s)
    (hok : NamesCopied i s e) : AtStart sent (handlingStep i s e) := by
  cases e with
  | turn =>
    cases hh : s.handler with
    | none =>
      simp only [handlingStep, hh]
      exact hs
    | some h =>
      simp only [handlingStep, hh]
      exact atStart_turn hs hh (hok h hh)
  | meanwhile server =>
    obtain ⟨done, left, hsent, hgot, hat⟩ := hs
    refine ⟨done, left, hsent, hgot, ?_⟩
    intro h hh hin
    obtain ⟨h0, hh0, rfl⟩ := Option.map_eq_some_iff.mp hh
    exact hat h0 hh0 hin

/-! ## Runs -/

/-- In every run of the thread on a connection over which some first part of the frames
    arrives, whatever other threads do in between. -/
theorem obtained_are_the_first_sent {i : Nat} {sent : List Frame} {s : Handling} (hnew : s.obtained = [])
    (harrives : ∀ h ∈ s.handler, h.inlet.input <+: sent.flatMap Frame.encode) {events : List HandlingEvent}
    (hnames : Run.Along (handlingStep i) (NamesCopied i) s events) :
    (Run.run (handlingStep i) s events).obtained.map (·.toFields) <+: sent.map Frame.fields := by
  have h0 : AtStart sent s := ⟨[], sent, rfl, by rw [hnew]; rfl, fun h hh _ => harrives h hh⟩
  obtain ⟨done, left, rfl, hgot, -⟩ := Run.along_inv atStart_step h0 hnames
  rw [hgot, List.map_append]
  exact List.prefix_append _ _

/-- The connection fails in the second frame. -/
def cutOff : Handling where
  handler := some { server := serverWith (fun _ => emptyQueue) [] (Nat.zero_le _)
                    inlet := (inletOf ([twoBytes, nothing].flatMap Frame.encode |>.take 40) fun _ => 64).inlet
                    errno := 0, writes := [], exited := false }
  obtained := []

theorem obtained_are_the_first_sent_when_cut_off :
    (Run.run (handlingStep 0) cutOff [.turn, .turn, .turn]).obtained.map (·.toFields) <+: [twoBytes, nothing].map Frame.fields := by
  refine obtained_are_the_first_sent (i := 0) rfl ?_ (by decide +kernel)
  intro h hh
  cases hh
  exact List.take_prefix _ _

end RabbitMQ.Core
