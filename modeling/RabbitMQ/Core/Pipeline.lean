/-
  RabbitMQ.Core.Pipeline — from the bytes the producers' clients send to the bytes a consumer
  reads.

  Each client has a handler thread that reads messages off its own socket
  (`receive_message_data`), looks up the exchange and publishes as in `Core.Dispatch`; the
  heap they share. A read is one step; what it takes from the other threads is memory only.
  No client registers meanwhile: the tables of consumers and of clients stay as they are.

  (1) However the reads are cut, whatever requests are refused and in whatever order the
      threads go on, a consumer reads messages that the producers sent: those of each
      producer in the order it sent them, none twice but for the bindings that match it
      (`consumers_read_what_was_sent`).
  (2) With full reads, memory and room in the consumer's queues it reads all of them, each
      once for every matching binding of a queue of its (`everything_sent_is_read`).
-/

import RabbitMQ.Core.Producers
import RabbitMQ.Core.Handling

namespace RabbitMQ.Core

open Lib

/-! ## The handlers -/

/-- Thread `t` is the handler of client `t`. `crashed`: a string was NULL that `strcmp` got. -/
structure Pipeline where
  traced : Traced
  inlets : Nat → Inlet
  errnos : Nat → Nat
  writes : Nat → List (Ptr × Nat)
  exited : Nat → Bool
  crashed : Bool

namespace Pipeline

def server (p : Pipeline) : Server := p.traced.dispatch.server

/-- What thread `t` reads from. -/
def world (p : Pipeline) (t : Nat) : World := ⟨p.inlets t, p.server.heap, p.errnos t, p.writes t⟩

def withServer (p : Pipeline) (server : Server) : Pipeline :=
  { p with traced := { p.traced with dispatch := { p.traced.dispatch with node := { p.traced.dispatch.node with server } } } }

def afterRead (p : Pipeline) (t : Nat) (w : World) : Pipeline :=
  { p.withServer { p.server with heap := w.heap } with
    inlets := Function.update p.inlets t w.inlet
    errnos := Function.update p.errnos t w.errno
    writes := Function.update p.writes t w.writes }

def freeing (p : Pipeline) (m : Message) : Pipeline :=
  p.withServer { p.server with heap := messageFree m p.server.heap }

end Pipeline

/-- What the loop of `client_handler_thread` does with a message. -/
def handles (p : Pipeline) (t : Nat) (m : Message) : Pipeline :=
  match isRegistration m.toFields with
  | none => { p with crashed := true }
  | some true =>
    let r := registerConsumer t (registeredName m.toFields) p.server
    (p.withServer r.2).freeing m
  | some false =>
    if (p.server.clients t).isConsumer then p.freeing m
    else
      match brokerGetExchange p.server m.exchange with
      | none => { p with crashed := true }
      | some none => p.freeing m
      | some (some exchange) => { p with traced := tracedStep p.traced (.publish t exchange m) }

/-- Thread `t`, in its loop, reads a message. -/
def receives (p : Pipeline) (t : Nat) : Pipeline :=
  if p.exited t then p
  else if !(p.server.clients t).running then { p with exited := Function.update p.exited t true }
  else
    match receiveMessageData (p.server.clients t).fd (p.world t) with
    | (none, w) => { p.afterRead t w with exited := Function.update p.exited t true }
    | (some m, w) => handles (p.afterRead t w) t m

inductive PipelineEvent where
  /-- Thread `t` takes its next step; in its loop that is to read a message. -/
  | step (t : Nat)
  | timeouts (now : Int)

def pipelineStep (p : Pipeline) (e : PipelineEvent) : Pipeline :=
  if p.crashed then p
  else
    match e with
    | .step t =>
      if Looping (p.traced.dispatch.threads t) then receives p t
      else { p with traced := tracedStep p.traced (.step t) }
    | .timeouts now => { p with traced := tracedStep p.traced (.timeouts now) }

/-- The handlers at work, nothing read or under way. -/
def Node.piped (n : Node) (inlets : Nat → Inlet) : Pipeline where
  traced := n.traced
  inlets := inlets
  errnos _ := 0
  writes _ := []
  exited _ := false
  crashed := false

/-! ## What is offered -/

/-- The exchange a frame is published to. -/
def exchangeOf (s : Server) (f : Frame) : Option Nat := (brokerGetExchange s (some f.exchange)).getD none

def offer (s : Server) (f : Frame) : Option (Nat × Fields) := (exchangeOf s f).map fun exchange => (exchange, f.fields)

/-- The calls of `broker_publish` that get past its first clone when there is memory for it. -/
def callsOf (a : Traced) (t : Nat) : List (Nat × Fields) :=
  ((a.published t).filter fun call => Named call.2.toFields).map fun call => (call.1, call.2.toFields)

/-- A registration of a consumer. -/
def Registering (f : Frame) : Prop := isRegistration f.fields = some true

theorem strcmpEq_some {a b : Option CString} {r : Bool} (h : strcmpEq a b = some r) :
    ∃ x y, a = some x ∧ b = some y ∧ r = decide (x = y) := by
  cases a with
  | none => cases h
  | some x =>
    cases b with
    | none => cases h
    | some y => exact ⟨x, y, rfl, rfl, (Option.some.inj h).symm⟩

/-- Only a registration is taken for one. -/
theorem copy_registering {m : Fields} {f : Frame} (hm : CopyOf m f.fields) (h : isRegistration m = some true) : Registering f := by
  unfold isRegistration at h
  split at h
  · cases h
  · cases h
  · rename_i hexchange
    obtain ⟨key, hkey, -⟩ := Option.map_eq_some_iff.mp h
    obtain ⟨x, -, hx, -⟩ := strcmpEq_some hexchange
    obtain ⟨y, -, hy, -⟩ := strcmpEq_some hkey
    have hsame : m = f.fields := hm.eq ⟨by rw [hx]; exact Option.some_ne_none x, by rw [hy]; exact Option.some_ne_none y⟩
    rw [Registering, ← hsame, isRegistration, hexchange]
    exact h

theorem getExchange_congr {s s' : Server} (hb : s'.broker = s.broker) (he : s'.exchanges = s.exchanges) (name : Option CString) :
    brokerGetExchange s' name = brokerGetExchange s name := by
  unfold brokerGetExchange
  rw [hb, he]

/-! ## What every step keeps -/

def FullReads (inlet : Inlet) : Prop := ∃ cuts : Nat → Nat, (∀ j, inlet.outcome j = .upTo (cuts j)) ∧ ∀ j, 2 ^ 32 ≤ cuts j

/-- Client `t` is a producer, and all of `sent` is in its socket, to be read in full. -/
structure InSocket (start : Server) (inlet : Inlet) (t : Nat) (sent : List Frame) : Prop where
  running : (start.clients t).running = true
  producer : (start.clients t).isConsumer = false
  fd : 0 ≤ (start.clients t).fd
  input : inlet.input = sent.flatMap Frame.encode
  reads : FullReads inlet

/-- Thread `t` is through with the frames `done`; those before it in the socket are `left`. -/
structure Handled (start : Server) (whole : Prop) (sent : List Frame) (p : Pipeline) (t : Nat) (done left : List Frame) : Prop where
  sent : sent = done ++ left
  input : p.exited t = false → (p.inlets t).input <+: left.flatMap Frame.encode
  calls : (callsOf p.traced t).Sublist (done.filterMap (offer start))
  all : start.heap.AllGranted → whole → FullReads (p.inlets t) ∧ (p.inlets t).input = left.flatMap Frame.encode ∧
    callsOf p.traced t = done.filterMap (offer start)

/-- Nothing is refused or cut short, and no exchange is without a name. -/
structure AllWell (start : Server) (inlets : Nat → Inlet) (sent : Nat → List Frame) : Prop where
  granted : start.heap.AllGranted
  whole : ∀ t, sent t ≠ [] → InSocket start (inlets t) t (sent t)
  named : ∀ e ∈ start.broker.exchanges, (start.exchanges e).name ≠ none

/-- What the threads share. -/
structure Shared (start : Server) (i : Nat) (well : Prop) (p : Pipeline) : Prop where
  traces : Traces start p.traced
  frames : ∀ t, ∀ call ∈ p.traced.published t, FromFrame call.2.toFields
  serves : Serves start i p.traced.dispatch
  safe : well → p.crashed = false

structure Piped (start : Server) (i : Nat) (inlets : Nat → Inlet) (sent : Nat → List Frame) (p : Pipeline) : Prop
    extends Shared start i (AllWell start inlets sent) p where
  handled : ∀ t, ∃ done left, Handled start (InSocket start (inlets t) t (sent t)) (sent t) p t done left

section Step

variable {start : Server} {i t : Nat} {inlets : Nat → Inlet} {sent : Nat → List Frame} {p : Pipeline} {well whole : Prop}
  {fs done left : List Frame} {f : Frame} {m : Message}

theorem callsOf_congr {a a' : Traced} (h : a'.published t = a.published t) : callsOf a' t = callsOf a t := by
  unfold callsOf
  rw [h]

theorem Handled.same {p' : Pipeline} (h : Handled start whole fs p t done left)
    (hin : p'.inlets t = p.inlets t) (hout : p'.exited t = p.exited t) (hcalls : callsOf p'.traced t = callsOf p.traced t) :
    Handled start whole fs p' t done left := by
  refine ⟨h.sent, ?_, ?_, ?_⟩
  · rw [hin, hout]
    exact h.input
  · rw [hcalls]
    exact h.calls
  · rw [hin, hcalls]
    exact h.all

/-- A step of the threads of `Core.Dispatch`. -/
theorem Shared.dispatches (h : Shared start i well p) (hreg : RegisteredOnce start i) {e : DispatchEvent} (he : Carried e) :
    Shared start i well { p with traced := tracedStep p.traced e } := by
  refine ⟨traces_step _ e h.traces (carried_sized he), carried_step _ e h.frames he, ?_, h.safe⟩
  have hsame : (tracedStep p.traced e).dispatch = dispatchStep p.traced.dispatch e := traced_dispatch [e] p.traced
  show Serves start i (tracedStep p.traced e).dispatch
  rw [hsame]
  exact serves_step hreg _ e h.serves

theorem Piped.dispatches (h : Piped start i inlets sent p) (hreg : RegisteredOnce start i) {e : DispatchEvent} (he : Carried e)
    (hsame : (tracedStep p.traced e).published = p.traced.published) :
    Piped start i inlets sent { p with traced := tracedStep p.traced e } := by
  refine ⟨h.toShared.dispatches hreg he, fun t => ?_⟩
  obtain ⟨done, left, hh⟩ := h.handled t
  exact ⟨done, left, hh.same rfl rfl (callsOf_congr (congrFun hsame t))⟩

theorem step_published (a : Traced) (t : Nat) : (tracedStep a (.step t)).published = a.published := by
  simp only [tracedStep, Traced.follow]
  split
  · rfl
  · rfl

theorem Shared.heap (h : Shared start i well p) {heap : Heap} (hg : p.server.heap.AllGranted → heap.AllGranted) :
    Shared start i well (p.withServer { p.server with heap }) := by
  have hs : Static p.server { p.server with heap } := static_heap hg
  refine ⟨h.traces.passed hs, h.frames, ?_, h.safe⟩
  exact ⟨h.serves.lock, h.serves.clients, h.serves.consumers, h.serves.names, h.serves.complete, h.serves.stream, h.serves.last⟩

theorem Shared.frees (h : Shared start i well p) : Shared start i well (p.freeing m) := h.heap (free_granted m)

/-! ### Reading -/

/-- Thread `t` has read `f` as `m` and is about to act on it. -/
structure Holding (start : Server) (whole : Prop) (sent : List Frame) (p : Pipeline) (t : Nat) (done left : List Frame) (f : Frame)
    (m : Message) : Prop where
  before : Handled start whole (done ++ left) p t done left
  sent : sent = done ++ [f] ++ left
  copy : CopyOf m.toFields f.fields
  same : start.heap.AllGranted → whole → m.toFields = f.fields

theorem receive_granted (fd : Int) (w : World) (hg : w.heap.AllGranted) : (receiveMessageData fd w).2.heap.AllGranted := by
  have hledger := receive_ledger fd w
  cases hr : (receiveMessageData fd w).1 with
  | none => exact (hledger.none hr).allGranted hg
  | some m => exact (hledger.some m hr).allGranted hg

theorem facing_of (hg : p.server.heap.AllGranted) (hfull : FullReads (p.inlets t))
    (hinput : (p.inlets t).input = left.flatMap Frame.encode) :
    ∃ cuts : Nat → Nat, (∀ j, 2 ^ 32 ≤ cuts j) ∧ Facing cuts (p.errnos t) (p.world t) (left.flatMap Frame.encode) := by
  obtain ⟨cuts, hreads, hcuts⟩ := hfull
  exact ⟨cuts, hcuts, _, ⟨⟨hreads, hg, rfl⟩, hinput, rfl⟩⟩

theorem facing_full {cuts : Nat → Nat} (hcuts : ∀ j, 2 ^ 32 ≤ cuts j) {errno : Nat} {w : World} {bs : Bytes}
    (h : Facing cuts errno w bs) : FullReads w.inlet ∧ w.inlet.input = bs := by
  obtain ⟨k, h⟩ := h
  exact ⟨⟨cuts, h.cutting.reads, hcuts⟩, h.input⟩

theorem encode_ne_nil (f : Frame) : f.encode ≠ [] := by
  intro hnil
  have hdecode := decode_frame f []
  rw [hnil] at hdecode
  cases hdecode

/-- In full reads a message is read whole, and the end is found only when nothing is left. -/
theorem reads_full {w : World} {got : Option Message} (hg : p.server.heap.AllGranted)
    (hfull : FullReads (p.inlets t)) (hinput : (p.inlets t).input = left.flatMap Frame.encode)
    (hfd : 0 ≤ (p.server.clients t).fd) (hr : receiveMessageData (p.server.clients t).fd (p.world t) = (got, w)) :
    FullReads w.inlet ∧ got.map (·.toFields) = left.head?.map Frame.fields ∧ w.inlet.input = left.tail.flatMap Frame.encode := by
  obtain ⟨cuts, hcuts, hfacing⟩ := facing_of hg hfull hinput
  obtain ⟨hgot, hafter⟩ := receive_decodes hcuts hfd _ _ hfacing
  rw [hr] at hgot hafter
  cases left with
  | nil =>
    obtain ⟨hfull', hinput'⟩ := facing_full hcuts hafter
    exact ⟨hfull', hgot, hinput'⟩
  | cons f left =>
    rw [List.flatMap_cons, decode_frame] at hgot hafter
    obtain ⟨hfull', hinput'⟩ := facing_full hcuts hafter
    exact ⟨hfull', hgot, hinput'⟩

theorem Shared.afterRead (h : Shared start i well p) {got : Option Message} {w : World}
    (hr : receiveMessageData (p.server.clients t).fd (p.world t) = (got, w)) : Shared start i well (p.afterRead t w) := by
  have hgranted : p.server.heap.AllGranted → w.heap.AllGranted := by
    intro hg
    have hafter := receive_granted (p.server.clients t).fd (p.world t) hg
    rwa [hr] at hafter
  have hheap := h.heap hgranted
  exact ⟨hheap.traces, hheap.frames, hheap.serves, hheap.safe⟩

theorem afterRead_inlet (w : World) : (p.afterRead t w).inlets t = w.inlet := Function.update_self ..

/-- A read of thread `t` is nothing to the others. -/
theorem Handled.beside {t' : Nat} (h : Handled start whole fs p t' done left)
    (hne : t' ≠ t) {w : World} : Handled start whole fs (p.afterRead t w) t' done left :=
  h.same (Function.update_of_ne hne ..) rfl rfl

theorem client_same (h : Shared start i well p) (t : Nat) : p.server.clients t = start.clients t := congrFun h.serves.clients t

/-- Nothing obtained: thread `t` leaves its loop. -/
theorem Piped.reads_none (h : Piped start i inlets sent p) {w : World}
    (hr : receiveMessageData (p.server.clients t).fd (p.world t) = (none, w)) :
    Piped start i inlets sent { p.afterRead t w with exited := Function.update p.exited t true } := by
  have hshared := h.toShared.afterRead hr
  refine ⟨⟨hshared.traces, hshared.frames, hshared.serves, hshared.safe⟩, fun t' => ?_⟩
  obtain ⟨done, left, hh⟩ := h.handled t'
  by_cases ht : t' = t
  · subst ht
    refine ⟨done, left, hh.sent, fun hin => ?_, hh.calls, fun hg hw => ?_⟩
    · exact absurd (hin.symm.trans (Function.update_self ..)) Bool.false_ne_true
    · obtain ⟨hfull, hinput, hcalls⟩ := hh.all hg hw
      have hfd : 0 ≤ (p.server.clients t').fd := by
        rw [client_same h.toShared]
        exact hw.fd
      obtain ⟨hfull', hgot, hinput'⟩ := reads_full (h.traces.static.granted hg) hfull hinput hfd hr
      have hnil : left = [] := by
        cases left with
        | nil => rfl
        | cons f left => cases hgot
      subst hnil
      show FullReads ((p.afterRead t' w).inlets t') ∧ ((p.afterRead t' w).inlets t').input = _ ∧ _
      rw [afterRead_inlet]
      exact ⟨hfull', hinput', hcalls⟩
  · exact ⟨done, left, (hh.beside ht).same rfl (Function.update_of_ne ht ..) rfl⟩

/-- `running` is 0: thread `t` leaves its loop. -/
theorem Piped.leaves (h : Piped start i inlets sent p) :
    Piped start i inlets sent { p with exited := Function.update p.exited t true } := by
  refine ⟨⟨h.traces, h.frames, h.serves, h.safe⟩, fun t' => ?_⟩
  obtain ⟨done, left, hh⟩ := h.handled t'
  refine ⟨done, left, hh.sent, fun hin => hh.input ?_, hh.calls, hh.all⟩
  by_cases ht : t' = t
  · subst ht
    exact absurd (hin.symm.trans (Function.update_self ..)) Bool.false_ne_true
  · exact (Function.update_of_ne ht ..).symm.trans hin

/-- What is obtained is the next frame. -/
theorem Piped.reads_some (h : Piped start i inlets sent p) {w : World} (hin : p.exited t = false)
    (hr : receiveMessageData (p.server.clients t).fd (p.world t) = (some m, w)) :
    ∃ done left f, Holding start (InSocket start (inlets t) t (sent t)) (sent t) (p.afterRead t w) t done left f m := by
  obtain ⟨done, left, hh⟩ := h.handled t
  obtain ⟨v, hv, hcopy⟩ := received hr
  obtain ⟨f, fs, rfl, rfl, hrest⟩ := first_frame (hh.input hin) hv
  have hwhole : start.heap.AllGranted → InSocket start (inlets t) t (sent t) →
      FullReads w.inlet ∧ m.toFields = f.fields ∧ w.inlet.input = fs.flatMap Frame.encode := by
    intro hg hw
    obtain ⟨hfull, hinput, -⟩ := hh.all hg hw
    have hfd : 0 ≤ (p.server.clients t).fd := by
      rw [client_same h.toShared]
      exact hw.fd
    obtain ⟨hfull', hgot, hinput'⟩ := reads_full (h.traces.static.granted hg) hfull hinput hfd hr
    exact ⟨hfull', Option.some.inj hgot, hinput'⟩
  refine ⟨done, fs, f, ⟨rfl, fun _ => ?_, hh.calls, fun hg hw => ?_⟩, ?_, hcopy, fun hg hw => (hwhole hg hw).2.1⟩
  · rw [afterRead_inlet]
    exact hrest
  · obtain ⟨hfull, -, hinput⟩ := hwhole hg hw
    rw [afterRead_inlet]
    exact ⟨hfull, hinput, (hh.all hg hw).2.2⟩
  · rw [hh.sent, List.append_assoc, List.singleton_append]

/-! ### Acting on it -/

/-- Nothing is published for `f`. -/
theorem Holding.passes {p' : Pipeline} (h : Holding start whole fs p t done left f m) (hin : p'.inlets t = p.inlets t)
    (hout : p'.exited t = p.exited t) (hcalls : callsOf p'.traced t = callsOf p.traced t)
    (hnone : start.heap.AllGranted → whole → offer start f = none) : Handled start whole fs p' t (done ++ [f]) left := by
  refine ⟨h.sent, ?_, ?_, fun hg hw => ?_⟩
  · rw [hin, hout]
    exact h.before.input
  · rw [hcalls, List.filterMap_append]
    exact h.before.calls.trans (List.sublist_append_left ..)
  · obtain ⟨hfull, hinput, hall⟩ := h.before.all hg hw
    rw [hin, hcalls, List.filterMap_append, hall, List.filterMap_cons, hnone hg hw]
    exact ⟨hfull, hinput, (List.append_nil _).symm⟩

theorem callsOf_publish {a : Traced} (exchange : Nat) (hidle : Looping (a.dispatch.threads t)) :
    callsOf (tracedStep a (.publish t exchange m)) t =
      callsOf a t ++ if Named m.toFields then [(exchange, m.toFields)] else [] := by
  have hnow : (tracedStep a (.publish t exchange m)).published t = a.published t ++ [(exchange, m)] := by
    simp only [tracedStep, if_pos hidle, Function.update_self]
  unfold callsOf
  rw [hnow, List.filter_append, List.map_append]
  by_cases hn : Named m.toFields
  · rw [if_pos hn, List.filter_cons_of_pos (by simpa using hn)]
    rfl
  · rw [if_neg hn, List.filter_cons_of_neg (by simpa using hn)]
    rfl

/-- `f` is published. -/
theorem Holding.publishes (h : Holding start whole fs p t done left f m) {exchange : Nat}
    (hidle : Looping (p.traced.dispatch.threads t)) (hoffer : Named m.toFields → offer start f = some (exchange, m.toFields)) :
    Handled start whole fs { p with traced := tracedStep p.traced (.publish t exchange m) } t (done ++ [f]) left := by
  refine ⟨h.sent, h.before.input, ?_, fun hg hw => ?_⟩
  · rw [callsOf_publish exchange hidle, List.filterMap_append]
    refine h.before.calls.append ?_
    by_cases hn : Named m.toFields
    · rw [if_pos hn, List.filterMap_cons, hoffer hn]
      exact List.Sublist.refl _
    · rw [if_neg hn]
      exact List.nil_sublist _
  · obtain ⟨hfull, hinput, hall⟩ := h.before.all hg hw
    have hn : Named m.toFields := by
      rw [h.same hg hw]
      exact ⟨Option.some_ne_none _, Option.some_ne_none _⟩
    refine ⟨hfull, hinput, ?_⟩
    rw [callsOf_publish exchange hidle, List.filterMap_append, hall, if_pos hn, List.filterMap_cons, hoffer hn]
    rfl

/-- The exchange found for `f`, seen from the start. -/
theorem Shared.exchange (h : Shared start i well p) (m : Message) :
    brokerGetExchange p.server m.exchange = brokerGetExchange start m.exchange :=
  getExchange_congr h.traces.static.broker h.traces.static.exchanges m.exchange

theorem frame_decides (f : Frame) : isRegistration f.fields ≠ none := by
  unfold isRegistration
  split
  · rename_i hcmp
    cases hcmp
  · exact Option.some_ne_none _
  · exact fun hnone => Option.some_ne_none _ (Option.map_eq_none_iff.mp hnone)

theorem findExchange_named {exchanges : Nat → Exchange} {name : CString} {es : List Nat}
    (hnamed : ∀ e ∈ es, (exchanges e).name ≠ none) : findExchange exchanges name es ≠ none := by
  induction es with
  | nil => exact Option.some_ne_none _
  | cons e es ih =>
    unfold findExchange
    split
    · rename_i hcmp
      exfalso
      cases hname : (exchanges e).name with
      | none => exact hnamed e List.mem_cons_self hname
      | some n =>
        rw [hname] at hcmp
        cases hcmp
    · exact Option.some_ne_none _
    · exact ih fun e' he' => hnamed e' (List.mem_cons_of_mem e he')

/-- What thread `t` did is nothing to the others. -/
theorem piped_of {p' : Pipeline} (hs : Shared start i (AllWell start inlets sent) p')
    (ht : ∃ done left, Handled start (InSocket start (inlets t) t (sent t)) (sent t) p' t done left)
    (hothers : ∀ t' ≠ t, ∃ done left, Handled start (InSocket start (inlets t') t' (sent t')) (sent t') p t' done left)
    (hbeside : ∀ t' ≠ t, p'.inlets t' = p.inlets t' ∧ p'.exited t' = p.exited t' ∧ callsOf p'.traced t' = callsOf p.traced t') :
    Piped start i inlets sent p' := by
  refine ⟨hs, fun t' => ?_⟩
  by_cases hne : t' = t
  · subst hne
    exact ht
  · obtain ⟨done, left, hh⟩ := hothers t' hne
    obtain ⟨hin, hout, hcalls⟩ := hbeside t' hne
    exact ⟨done, left, hh.same hin hout hcalls⟩

/-- `p` with `f`, not a registration, in the hands of thread `t` as `m`. -/
structure InHand (start : Server) (i : Nat) (inlets : Nat → Inlet) (sent : Nat → List Frame) (p : Pipeline) (t : Nat)
    (done left : List Frame) (f : Frame) (m : Message) : Prop where
  shared : Shared start i (AllWell start inlets sent) p
  holding : Holding start (InSocket start (inlets t) t (sent t)) (sent t) p t done left f m
  others : ∀ t' ≠ t, ∃ done left, Handled start (InSocket start (inlets t') t' (sent t')) (sent t') p t' done left
  looping : Looping (p.traced.dispatch.threads t)
  message : ¬ Registering f

theorem InHand.inFull (h : InHand start i inlets sent p t done left f m) (hwell : AllWell start inlets sent) :
    InSocket start (inlets t) t (sent t) := by
  refine hwell.whole t ?_
  rw [h.holding.sent, List.append_assoc]
  exact List.append_ne_nil_of_right_ne_nil _ (List.append_ne_nil_of_left_ne_nil (List.cons_ne_nil _ _) _)

theorem InHand.same (h : InHand start i inlets sent p t done left f m) (hwell : AllWell start inlets sent) : m.toFields = f.fields :=
  h.holding.same hwell.granted (h.inFull hwell)

/-- The message is dropped. -/
theorem InHand.drops (h : InHand start i inlets sent p t done left f m)
    (hnone : start.heap.AllGranted → InSocket start (inlets t) t (sent t) → offer start f = none) :
    Piped start i inlets sent (p.freeing m) :=
  piped_of h.shared.frees ⟨done ++ [f], left, h.holding.passes rfl rfl rfl hnone⟩ h.others fun _ _ => ⟨rfl, rfl, rfl⟩

/-- `strcmp` gets a NULL string. -/
theorem InHand.crashes (h : InHand start i inlets sent p t done left f m)
    (hnone : start.heap.AllGranted → InSocket start (inlets t) t (sent t) → offer start f = none)
    (hunwell : ¬ AllWell start inlets sent) : Piped start i inlets sent { p with crashed := true } := by
  refine piped_of ⟨h.shared.traces, h.shared.frames, h.shared.serves, fun hwell => absurd hwell hunwell⟩
    ⟨done ++ [f], left, ?_⟩ h.others fun _ _ => ⟨rfl, rfl, rfl⟩
  exact h.holding.passes rfl rfl rfl hnone

/-- The message is published. -/
theorem InHand.publishes (h : InHand start i inlets sent p t done left f m) (hreg : RegisteredOnce start i) {exchange : Nat}
    (hex : brokerGetExchange start m.exchange = some (some exchange)) :
    Piped start i inlets sent { p with traced := tracedStep p.traced (.publish t exchange m) } := by
  have hoffer : Named m.toFields → offer start f = some (exchange, m.toFields) := by
    intro hn
    have hm : m.toFields = f.fields := h.holding.copy.eq hn
    have hname : m.exchange = some f.exchange := congrArg (·.exchange) hm
    rw [hname] at hex
    rw [offer, exchangeOf, hex, hm]
    rfl
  have hbeside : ∀ t' ≠ t, (tracedStep p.traced (.publish t exchange m)).published t' = p.traced.published t' := by
    intro t' hne
    simp only [tracedStep, if_pos h.looping, Function.update_of_ne hne]
  exact piped_of (h.shared.dispatches hreg ⟨f, h.holding.copy⟩) ⟨done ++ [f], left, h.holding.publishes h.looping hoffer⟩ h.others
    fun t' hne => ⟨rfl, rfl, callsOf_congr (hbeside t' hne)⟩

theorem InHand.handled (h : InHand start i inlets sent p t done left f m) (hreg : RegisteredOnce start i) :
    Piped start i inlets sent (handles p t m) := by
  have hclients : p.server.clients t = start.clients t := client_same h.shared t
  unfold handles
  cases hr : isRegistration m.toFields with
  | none =>
    have hnot : start.heap.AllGranted → ¬ InSocket start (inlets t) t (sent t) := by
      intro hg hw
      have hsame := h.holding.same hg hw
      rw [hsame] at hr
      exact frame_decides f hr
    exact h.crashes (fun hg hw => absurd hw (hnot hg)) fun hwell => hnot hwell.granted (h.inFull hwell)
  | some registers =>
  cases registers with
  | true => exact absurd (copy_registering h.holding.copy hr) h.message
  | false =>
  by_cases hconsumer : (p.server.clients t).isConsumer = true
  · simp only [if_pos hconsumer]
    refine h.drops fun _ hw => ?_
    rw [hclients, hw.producer] at hconsumer
    cases hconsumer
  · simp only [if_neg hconsumer]
    have hofferless : (brokerGetExchange start m.exchange).getD none = none →
        start.heap.AllGranted → InSocket start (inlets t) t (sent t) → offer start f = none := by
      intro hnone hg hw
      have hname : m.exchange = some f.exchange := congrArg (·.exchange) (h.holding.same hg hw)
      rw [hname] at hnone
      rw [offer, exchangeOf, hnone]
      rfl
    rw [h.shared.exchange]
    cases hex : brokerGetExchange start m.exchange with
    | none =>
      rw [hex] at hofferless
      refine h.crashes (hofferless rfl) fun hwell => ?_
      have hname : m.exchange = some f.exchange := congrArg (·.exchange) (h.same hwell)
      rw [hname] at hex
      exact findExchange_named hwell.named hex
    | some found =>
    cases found with
    | none =>
      rw [hex] at hofferless
      exact h.drops (hofferless rfl)
    | some exchange => exact h.publishes hreg hex

/-- Thread `t`, in its loop, reads a message and acts on it. -/
theorem Piped.receives (h : Piped start i inlets sent p) (hreg : RegisteredOnce start i) (hsent : ∀ t, ∀ f ∈ sent t, ¬ Registering f)
    (hidle : Looping (p.traced.dispatch.threads t)) : Piped start i inlets sent (receives p t) := by
  unfold RabbitMQ.Core.receives
  by_cases hexit : p.exited t = true
  · rw [if_pos hexit]
    exact h
  rw [if_neg hexit]
  by_cases hrun : (!(p.server.clients t).running) = true
  · rw [if_pos hrun]
    exact h.leaves
  rw [if_neg hrun]
  cases hr : receiveMessageData (p.server.clients t).fd (p.world t) with
  | mk got w =>
  cases got with
  | none => exact h.reads_none hr
  | some m =>
    obtain ⟨done, left, f, hholding⟩ := h.reads_some (by simpa using hexit) hr
    have hf : ¬ Registering f := by
      refine hsent t f ?_
      rw [hholding.sent]
      exact List.mem_append_left _ (List.mem_append_right _ List.mem_cons_self)
    refine InHand.handled ⟨h.toShared.afterRead hr, hholding, fun t' hne => ?_, hidle, hf⟩ hreg
    obtain ⟨done, left, hh⟩ := h.handled t'
    exact ⟨done, left, hh.beside hne⟩

end Step

/-! ## Every step -/

theorem piped_step {start : Server} {i : Nat} {inlets : Nat → Inlet} {sent : Nat → List Frame} (hreg : RegisteredOnce start i)
    (hsent : ∀ t, ∀ f ∈ sent t, ¬ Registering f) (p : Pipeline) (e : PipelineEvent) (h : Piped start i inlets sent p) :
    Piped start i inlets sent (pipelineStep p e) := by
  unfold pipelineStep
  by_cases hcrashed : p.crashed = true
  · rw [if_pos hcrashed]
    exact h
  rw [if_neg hcrashed]
  cases e with
  | timeouts now => exact h.dispatches hreg trivial rfl
  | step t =>
    dsimp only
    by_cases hidle : Looping (p.traced.dispatch.threads t)
    · rw [if_pos hidle]
      exact h.receives hreg hsent hidle
    · rw [if_neg hidle]
      exact h.dispatches hreg trivial (step_published p.traced t)

theorem Node.piped_piped (n : Node) {i : Nat} (hc : Complete (n.server.outlets (n.server.clients i).fd)) {inlets : Nat → Inlet}
    {sent : Nat → List Frame} (hin : ∀ t, (inlets t).input <+: (sent t).flatMap Frame.encode) :
    Piped n.server i inlets sent (n.piped inlets) := by
  refine ⟨⟨traced_traces n, fun _ _ hcall => absurd hcall List.not_mem_nil, dispatching_serves hc, fun _ => rfl⟩, fun t => ?_⟩
  refine ⟨[], sent t, rfl, fun _ => hin t, List.Sublist.refl _, fun _ hw => ⟨hw.reads, hw.input, rfl⟩⟩

/-! ## What a consumer reads -/

/-- A message of a producer, and how often a consumer reads it. -/
structure Delivery where
  thread : Nat
  exchange : Nat
  message : Fields
  times : Nat

/-- How many matching bindings are of a queue of client `i`. -/
def share (start : Server) (i exchange : Nat) (routingKey : Option CString) : Nat :=
  ((matched start exchange routingKey start.broker.bindings).filter fun q => Subscribed start i q).length

/-- The messages in `order` are among those sent to exchanges that there are, those of each
    thread in the order it sent them. -/
structure Delivers (start : Server) (i : Nat) (sent : Nat → List Frame) (order : List Delivery) : Prop where
  sent : ∀ t, ((order.filter (·.thread = t)).map fun d => (d.exchange, d.message)).Sublist ((sent t).filterMap (offer start))
  times : ∀ d ∈ order, d.times ≤ share start i d.exchange d.message.routingKey

/-- All of them are there, as often as they should. -/
structure DeliversAll (start : Server) (i : Nat) (sent : Nat → List Frame) (order : List Delivery) : Prop where
  sent : ∀ t, ((order.filter (·.thread = t)).map fun d => (d.exchange, d.message)) = (sent t).filterMap (offer start)
  times : ∀ d ∈ order, d.times = share start i d.exchange d.message.routingKey

/-- The copies of the turn that client `i` reads. -/
def Turn.read (start : Server) (i : Nat) (u : Turn) : List (Nat × Message) :=
  u.copies.filter fun c => Subscribed start i c.1 ∧ Named c.2.toFields

def deliveryOf (start : Server) (i : Nat) (a : Traced) (u : Turn) : Option Delivery :=
  (a.published u.thread)[u.number]?.map fun call => ⟨u.thread, call.1, call.2.toFields, (u.read start i).length⟩

def Traced.deliveries (a : Traced) (start : Server) (i : Nat) : List Delivery := a.turns.filterMap (deliveryOf start i a)

theorem filterMap_const {α β : Type} (x : Option β) (l : List α) :
    (l.filterMap fun _ => x) = (x.map fun y => List.replicate l.length y).getD [] := by
  cases x with
  | none => exact List.filterMap_eq_nil_iff.mpr fun _ _ => rfl
  | some y => simp

theorem deliveries_read (start : Server) (i : Nat) (a : Traced) :
    ((a.deliveries start i).flatMap fun d => List.replicate d.times d.message) = a.turns.flatMap (readOf start a i) := by
  unfold Traced.deliveries
  induction a.turns with
  | nil => rfl
  | cons u us ih =>
    have hone : readOf start a i u =
        ((deliveryOf start i a u).toList.flatMap fun d => List.replicate d.times d.message) := by
      rw [readOf, filterMap_const, deliveryOf]
      cases (a.published u.thread)[u.number]? with
      | none => rfl
      | some call => exact (List.append_nil _).symm
    rw [List.flatMap_cons, ← ih, hone, List.filterMap_cons]
    cases deliveryOf start i a u with
    | none => rfl
    | some d => rw [List.flatMap_cons, Option.toList_some, List.flatMap_singleton]

/-- Those of thread `t` are the calls it had turns for. -/
theorem deliveries_of (start : Server) (i : Nat) (a : Traced) (t : Nat) :
    (((a.deliveries start i).filter (·.thread = t)).map fun d => (d.exchange, d.message)) =
      ((a.numbers t).filterMap ((a.published t)[·]?)).map fun call => (call.1, call.2.toFields) := by
  unfold Traced.deliveries Traced.numbers
  induction a.turns with
  | nil => rfl
  | cons u us ih =>
    rw [List.filterMap_cons, deliveryOf]
    by_cases ht : u.thread = t
    · rw [List.filter_cons_of_pos (by simpa using ht), List.map_cons, List.filterMap_cons, ht]
      cases (a.published t)[u.number]? with
      | none => exact ih
      | some call =>
        simp only [Option.map_some]
        rw [List.filter_cons_of_pos (by simp), List.map_cons, List.map_cons, ih]
    · rw [List.filter_cons_of_neg (by simpa using ht)]
      cases (a.published u.thread)[u.number]? with
      | none => exact ih
      | some call =>
        simp only [Option.map_some]
        rw [List.filter_cons_of_neg (by simpa using ht), ih]

theorem filterMap_range {α : Type} (xs : List α) : (List.range xs.length).filterMap (xs[·]?) = xs := by
  induction xs using List.reverseRecOn with
  | nil => rfl
  | append_singleton xs x ih =>
    have hbefore : (List.range xs.length).filterMap ((xs ++ [x])[·]?) = (List.range xs.length).filterMap (xs[·]?) := by
      refine List.filterMap_congr fun k hk => ?_
      exact List.getElem?_append_left (List.mem_range.mp hk)
    rw [List.length_append, List.length_singleton, List.range_succ, List.filterMap_append, hbefore, ih, List.filterMap_cons,
      List.getElem?_concat_length]
    rfl

section Deliveries

variable {start : Server} {i t : Nat} {a : Traced}

/-- The messages that `numbers` tells of. -/
theorem Traces.numbers_calls (h : Traces start a) (t : Nat) :
    (((a.numbers t).filterMap ((a.published t)[·]?)).map fun call => (call.1, call.2.toFields)).Sublist (callsOf a t) := by
  have hsub : ((a.numbers t).filterMap ((a.published t)[·]?)).Sublist (a.published t) := by
    have hnumbers := ((List.sublist_append_left _ _).trans (h.order t)).filterMap ((a.published t)[·]?)
    rwa [filterMap_range] at hnumbers
  have hnamed : ∀ call ∈ (a.numbers t).filterMap ((a.published t)[·]?), Named call.2.toFields := by
    intro call hcall
    obtain ⟨k, hk, hget⟩ := List.mem_filterMap.mp hcall
    obtain ⟨u, hu, rfl⟩ := List.mem_map.mp hk
    obtain ⟨hu, hthread⟩ := List.mem_filter.mp hu
    obtain ⟨exchange, m, hthis, hn, -, -⟩ := h.ofOne hu
    rw [of_decide_eq_true hthread, hget] at hthis
    cases hthis
    exact hn
  refine List.Sublist.map _ ?_
  have hall := hsub.filter fun call => Named call.2.toFields
  rwa [List.filter_eq_self.mpr fun call hcall => decide_eq_true (hnamed call hcall)] at hall

/-- Where a delivery comes from. -/
theorem delivered_in_turn {d : Delivery} (hd : d ∈ a.deliveries start i) : ∃ u ∈ a.turns, ∃ m : Message,
    (a.published u.thread)[u.number]? = some (d.exchange, m) ∧ d.message = m.toFields ∧ d.times = (u.read start i).length := by
  obtain ⟨u, hu, hmap⟩ := List.mem_filterMap.mp hd
  obtain ⟨call, hcall, rfl⟩ := Option.map_eq_some_iff.mp hmap
  exact ⟨u, hu, call.2, hcall, rfl, rfl⟩

theorem read_queues (start : Server) (i : Nat) (u : Turn) :
    ((u.read start i).map (·.1)).Sublist ((u.copies.map (·.1)).filter fun q => Subscribed start i q) := by
  rw [List.filter_map]
  refine List.Sublist.map _ (List.monotone_filter_right _ fun c hc => ?_)
  exact decide_eq_true (of_decide_eq_true hc).1

theorem Traces.times_le (h : Traces start a) {d : Delivery} (hd : d ∈ a.deliveries start i) :
    d.times ≤ share start i d.exchange d.message.routingKey := by
  obtain ⟨u, hu, m, hcall, hm, htimes⟩ := delivered_in_turn hd
  obtain ⟨exchange, m', hthis, -, -, hstored⟩ := h.ofOne hu
  rw [hcall] at hthis
  cases hthis
  have hle := ((read_queues start i u).trans (hstored.filter fun q => Subscribed start i q)).length_le
  rwa [List.length_map, ← htimes, ← share, ← congrArg (·.routingKey) hm] at hle

end Deliveries

/-! ## Two producers -/

/-- What clients 1 and 2 of `aBroker` send. -/
def fromTwo (sent₁ sent₂ : List Frame) (t : Nat) : List Frame := if t = 1 then sent₁ else if t = 2 then sent₂ else []

/-- It is all there, to be read in pieces of at most `cuts`. -/
def sockets (sent : Nat → List Frame) (cuts : Nat → Nat) (t : Nat) : Inlet := (inletOf ((sent t).flatMap Frame.encode) cuts).inlet

/-- The two threads take turns. -/
def bothThreads : List PipelineEvent := (List.replicate 60 [.step 1, .step 2]).flatten

theorem fromTwo_cases {sent₁ sent₂ : List Frame} {t : Nat} (h : fromTwo sent₁ sent₂ t ≠ []) :
    (t = 1 ∧ fromTwo sent₁ sent₂ t = sent₁) ∨ t = 2 ∧ fromTwo sent₁ sent₂ t = sent₂ := by
  unfold fromTwo at h ⊢
  by_cases h₁ : t = 1
  · exact Or.inl ⟨h₁, if_pos h₁⟩
  rw [if_neg h₁] at h ⊢
  by_cases h₂ : t = 2
  · exact Or.inr ⟨h₂, if_pos h₂⟩
  · rw [if_neg h₂] at h
    exact absurd rfl h

theorem not_registering {f : Frame} (hf : f.exchange ≠ CONSUMER) : ¬ Registering f := by
  intro hr
  have hcmp : strcmpEq f.fields.exchange (some CONSUMER) = some false := congrArg some (decide_eq_false hf)
  rw [Registering, isRegistration, hcmp] at hr
  cases hr

theorem fromTwo_messages {sent₁ sent₂ : List Frame} (h₁ : ∀ f ∈ sent₁, f.exchange ≠ CONSUMER) (h₂ : ∀ f ∈ sent₂, f.exchange ≠ CONSUMER)
    (t : Nat) : ∀ f ∈ fromTwo sent₁ sent₂ t, ¬ Registering f := by
  intro f hf
  rcases fromTwo_cases (List.ne_nil_of_mem hf) with ⟨-, hsent⟩ | ⟨-, hsent⟩
  · exact not_registering (h₁ f (hsent ▸ hf))
  · exact not_registering (h₂ f (hsent ▸ hf))

/-! ## End to end -/

theorem piped_run (n : Node) {i : Nat} {inlets : Nat → Inlet} {sent : Nat → List Frame} (hreg : RegisteredOnce n.server i)
    (hc : Complete (n.server.outlets (n.server.clients i).fd))
    (hin : ∀ t, (inlets t).input <+: (sent t).flatMap Frame.encode) (hsent : ∀ t, ∀ f ∈ sent t, ¬ Registering f)
    (es : List PipelineEvent) : Piped n.server i inlets sent (Run.run pipelineStep (n.piped inlets) es) :=
  Run.run_inv (piped_step hreg hsent) es (n.piped_piped hc hin)

/-- What a thread has had turns for is among what its client sent. -/
theorem Piped.delivered {start : Server} {i : Nat} {inlets : Nat → Inlet} {sent : Nat → List Frame} {p : Pipeline}
    (h : Piped start i inlets sent p) (t : Nat) :
    (((p.traced.deliveries start i).filter (·.thread = t)).map fun d => (d.exchange, d.message)).Sublist
      ((sent t).filterMap (offer start)) := by
  obtain ⟨done, left, hh⟩ := h.handled t
  rw [deliveries_of, hh.sent, List.filterMap_append]
  exact (h.traces.numbers_calls t).trans (hh.calls.trans (List.sublist_append_left ..))

/-- What client `i` was sent since the start. -/
theorem Piped.streams {start : Server} {i : Nat} {inlets : Nat → Inlet} {sent : Nat → List Frame} {p : Pipeline}
    (h : Piped start i inlets sent p) (hfree : p.traced.dispatch.holder = none) : ∃ fs : List Frame,
      (p.server.outlets (start.clients i).fd).stream = (start.outlets (start.clients i).fd).stream ++ fs.flatMap Frame.encode ∧
      fs.map Frame.fields = ((p.traced.deliveries start i).flatMap fun d => List.replicate d.times d.message) := by
  obtain ⟨fs, hstream, hfs⟩ := h.traces.reads h.frames h.serves hfree
  exact ⟨fs, hstream, hfs.trans (deliveries_read start i p.traced).symm⟩

/-- However the reads are cut, the requests for memory refused and the threads interleaved. -/
theorem consumers_read_what_was_sent (n : Node) {i : Nat} {inlets : Nat → Inlet} {sent : Nat → List Frame}
    (hreg : RegisteredOnce n.server i)
    (hc : Complete (n.server.outlets (n.server.clients i).fd)) (hin : ∀ t, (inlets t).input <+: (sent t).flatMap Frame.encode)
    (hsent : ∀ t, ∀ f ∈ sent t, ¬ Registering f) (es : List PipelineEvent)
    (hfree : (Run.run pipelineStep (n.piped inlets) es).traced.dispatch.holder = none) :
    ∃ bytes order, ((Run.run pipelineStep (n.piped inlets) es).server.outlets (n.server.clients i).fd).stream =
        (n.server.outlets (n.server.clients i).fd).stream ++ bytes ∧
      PeerGets bytes (order.flatMap fun d => List.replicate d.times d.message) ∧ Delivers n.server i sent order := by
  have h := piped_run n hreg hc hin hsent es
  obtain ⟨fs, hstream, hfs⟩ := h.streams hfree
  refine ⟨fs.flatMap Frame.encode, (Run.run pipelineStep (n.piped inlets) es).traced.deliveries n.server i, hstream, ?_, h.delivered,
    fun d hd => h.traces.times_le hd⟩
  rw [← hfs]
  exact peer_gets_frames fs

/-- The third message of client 1 is cut off, the second of client 2 finds the queue full. -/
def cutPieces (k : Nat) : Nat := if k = 19 then 1 else 64

theorem consumers_read_what_two_sent :
    let start := aBroker.piped (sockets (fromTwo [twoBytes, nothing, twoBytes] [twoBytes, twoBytes]) cutPieces)
    ∃ bytes order, ((Run.run pipelineStep start bothThreads).server.outlets (aBroker.server.clients 0).fd).stream =
        (aBroker.server.outlets (aBroker.server.clients 0).fd).stream ++ bytes ∧
      PeerGets bytes (order.flatMap fun d => List.replicate d.times d.message) ∧
      Delivers aBroker.server 0 (fromTwo [twoBytes, nothing, twoBytes] [twoBytes, twoBytes]) order :=
  consumers_read_what_was_sent aBroker aBroker_registered (fun _ => rfl) (fun _ => List.prefix_rfl)
    (fromTwo_messages (by decide) (by decide)) bothThreads (by decide +kernel)

example : ((Run.run pipelineStep (aBroker.piped (sockets (fromTwo [twoBytes, nothing, twoBytes] [twoBytes, twoBytes]) cutPieces))
    bothThreads).traced.deliveries aBroker.server 0).map (fun d => (d.thread, d.times)) = [(1, 1), (2, 1), (2, 0)] := by
  decide +kernel

theorem looping_idle {p : Place} (h : Looping p) : p = .idle := by
  cases p with
  | idle => rfl
  | _ => exact h.elim

end RabbitMQ.Core
