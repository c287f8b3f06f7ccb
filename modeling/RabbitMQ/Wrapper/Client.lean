/-
  RabbitMQ.Wrapper.Client — `client.cpp`: the C++ client over a C connection.

  A process has any number of clients, C connections and contexts. A constructor makes one of
  each, and a move passes the connection and the context on together. A `get` is two steps,
  with messages coming in between; a callback is one. `std::string` is its bytes, a
  `shared_ptr` or a promise its number. A frame has no delivery tag, so an incoming message
  is given with the one its queue delivered it under.

  `ack` and `reject` look in `m_queues`, which nothing fills, and the callback hands on
  `lastDeliveryTag`, which nothing sets (`step_untouched`). So every message a consumer
  is handed has tag 0 and none can be settled: acknowledgments reach the delivery exactly in
  the runs that hand a consumer nothing (`acks_reach_iff`).
-/

import RabbitMQ.Core.Connection
import RabbitMQ.Core.Routing
import RabbitMQ.Lib.Run

namespace RabbitMQ.Wrapper

open Lib RabbitMQ.Core

/-! ## Wrapped messages -/

/-- `rabbitmq::Message`, around a C message. -/
structure Message where
  msg : Option Core.Message
  owned : Bool
  deliveryTag : UInt64

namespace Message

def wrap (msg : Option Core.Message) (owned : Bool) (deliveryTag : UInt64) : Except String Message :=
  if msg = none then .error "Cannot wrap NULL message" else .ok ⟨msg, owned, deliveryTag⟩

/-- What a move leaves behind. -/
def movedFrom : Message := ⟨none, false, 0⟩

/-- `~Message`. -/
def destroy (m : Message) (heap : Heap) : Heap :=
  match m.msg with
  | some message => if m.owned then messageFree message heap else heap
  | none => heap

end Message

/-! ## The message callback -/

structure ClientContext where
  consumer : Option Nat := none
  messagePromise : Option Nat := none
  currentQueue : Bytes := []
  lastDeliveryTag : UInt64 := 0

/-- What `set_value` or `onMessage` does with the wrapper it is given: it moves it to a place
    where it stays, or leaves it to be destroyed; and it returns or throws. -/
structure Handling where
  keeps : Bool
  throws : Option String

/-- `given` is the wrapper the handler was given, `kept` the one that outlives the call. -/
structure HandlerCall where
  thrown : Option String
  given : Option Message
  kept : Option Message
  heap : Heap

/-- The handler called with `Message(message, true, deliveryTag)`. The temporary is destroyed
    whether the handler returns or throws. -/
def callHandler (h : Handling) (message : Core.Message) (deliveryTag : UInt64) (heap : Heap) : HandlerCall :=
  match Message.wrap (some message) true deliveryTag with
  | .error what => ⟨some what, none, none, heap⟩
  | .ok m =>
    if h.keeps then ⟨h.throws, some m, some m, Message.movedFrom.destroy heap⟩
    else ⟨h.throws, some m, none, m.destroy heap⟩

/-- What a run of the callback leaves; `given` is what `onMessage` was given. -/
structure Called where
  context : Option ClientContext
  given : Option Message
  kept : Option Message
  heap : Heap

/-- The `catch` block frees the message. -/
def onMessageCallback (context : Option ClientContext) (message : Core.Message) (h : Handling) (heap : Heap) : Called :=
  match context with
  | none => ⟨none, none, none, messageFree message heap⟩
  | some context =>
    if context.messagePromise.isSome then
      let r := callHandler h message context.lastDeliveryTag heap
      if r.thrown.isSome then ⟨some context, none, r.kept, messageFree message r.heap⟩
      else ⟨some { context with messagePromise := none }, none, r.kept, r.heap⟩
    else if context.consumer.isSome then
      let r := callHandler h message context.lastDeliveryTag heap
      if r.thrown.isSome then ⟨some context, r.given, r.kept, messageFree message r.heap⟩
      else ⟨some context, r.given, r.kept, r.heap⟩
    else ⟨some context, none, none, messageFree message heap⟩

/-! ## Clients -/

/-- `m_conn` and `m_context`. -/
structure Link where
  conn : Nat
  context : Nat
  deriving DecidableEq

/-- Moved from, a client has no link. -/
structure Client where
  link : Option Link
  consumer : Option Nat
  autoAck : Bool
  queues : List (Bytes × Nat)

/-- A message handed to a consumer, and the tag its queue delivered it under. -/
structure Handed where
  message : Message
  deliveredAs : UInt64

/-- A call of `ack` or `reject`: whether the client was connected, and what was thrown. -/
structure Attempt where
  message : Message
  connected : Bool
  thrown : Option String

/-- `statuses` and `callbackContexts` are those of the C connections; `values` is what each
    promise was set to, `gets` the context each `get` under way waits in. -/
structure Process where
  clients : Nat → Option Client
  statuses : Nat → ConnectionStatus
  callbackContexts : Nat → Option Nat
  contexts : Nat → ClientContext
  made : Nat
  queues : Nat → Queue Core.Message
  heap : Heap
  values : Nat → Option Message
  gets : Nat → Option Nat
  promised : Nat
  kept : List Message
  handed : List Handed
  attempts : List Attempt

namespace Process

def setClient (p : Process) (k : Nat) (c : Option Client) : Process := { p with clients := Function.update p.clients k c }

def setStatus (p : Process) (i : Nat) (status : ConnectionStatus) : Process :=
  { p with statuses := Function.update p.statuses i status }

def setContext (p : Process) (i : Nat) (context : ClientContext) : Process :=
  { p with contexts := Function.update p.contexts i context }

/-- The link of a client that `m_conn && isConnected()` holds of. -/
def connectedLink (p : Process) (c : Client) : Option Link := c.link.filter fun l => p.statuses l.conn = .connected

end Process

/-- The constructor; `granted` is whether `connection_create` returns a connection. -/
def newClient (p : Process) (autoAck granted : Bool) : Except String (Client × Process) :=
  if granted then
    .ok (⟨some ⟨p.made, p.made⟩, none, autoAck, []⟩,
      { (p.setStatus p.made .disconnected).setContext p.made {} with
        callbackContexts := Function.update p.callbackContexts p.made (some p.made), made := p.made + 1 })
  else .error "Failed to create connection"

/-- `connection_connect` on connection `i`, with what its system calls come to. -/
def connectionConnect (p : Process) (i : Nat) (ok : Bool) : Nat × Process :=
  if p.statuses i = .connected ∨ p.statuses i = .connecting then (1, p)
  else if ok then (1, p.setStatus i .connected)
  else (0, p.setStatus i .failed)

def connectionDisconnect (p : Process) (i : Nat) : Process :=
  if p.statuses i ≠ .connected then p else p.setStatus i .disconnected

def connect (p : Process) (c : Client) (ok : Bool) : Bool × Process :=
  match c.link with
  | none => (false, p)
  | some l => let r := connectionConnect p l.conn ok; (r.1 != 0, r.2)

def disconnect (p : Process) (c : Client) : Process :=
  match c.link with
  | none => p
  | some l => connectionDisconnect p l.conn

def movedOut (c : Client) : Client := { c with link := none, consumer := none, queues := [] }

/-- `target` is constructed from `source`, which is `c`. -/
def moveClient (p : Process) (source target : Nat) (c : Client) : Process :=
  (p.setClient target (some c)).setClient source (some (movedOut c))

def moveAssign (p : Process) (source target : Nat) (c old : Client) : Process :=
  if target = source then p else moveClient (disconnect p old) source target c

/-- `~Client`. -/
def destroyClient (p : Process) (k : Nat) (c : Client) : Process := (disconnect p c).setClient k none

inductive ExchangeType where
  | direct
  | fanout
  | topic
  deriving DecidableEq, Repr

-- The bodies of these three are a TODO in the source.
def declareQueue (p : Process) (_name : Bytes) (_capacity : UInt64) (_durable : Bool) : Process := p

def bindQueue (p : Process) (_queueName _exchangeName _routingKey : Bytes) : Process := p

def declareExchange (p : Process) (_name : Bytes) (_type : ExchangeType) : Process := p

def consume (p : Process) (c : Client) (queueName : Bytes) (consumer : Option Nat) : Except String Process :=
  match p.connectedLink c with
  | none => .error "Not connected to broker"
  | some l => .ok (p.setContext l.context { p.contexts l.context with consumer, currentQueue := queueName })

/-- `get` up to its wait. -/
def getBegins (p : Process) (c : Client) (queueName : Bytes) : Except String Process :=
  match p.connectedLink c with
  | none => .error "Not connected to broker"
  | some l =>
    .ok { p.setContext l.context { p.contexts l.context with currentQueue := queueName, messagePromise := some p.promised } with
          gets := Function.update p.gets p.promised (some l.context), promised := p.promised + 1 }

/-- The end of the wait of `get` number `n`: the value is there, or the time is up. -/
def getEnds (p : Process) (n : Nat) : Option String × Process :=
  match p.gets n with
  | none => (none, p)
  | some i =>
    let p := { p with gets := Function.update p.gets n none }
    if (p.values n).isSome then (none, p)
    else (some "Timeout waiting for message", p.setContext i { p.contexts i with messagePromise := none })

/-- `ack` and `reject`, with the queue operation each makes and its texts. -/
def settle (settles : Queue Core.Message → UInt64 → Queue Core.Message × Out Core.Message) (noQueue notFound failed : String)
    (p : Process) (c : Client) (m : Message) : Except String Process :=
  match p.connectedLink c with
  | none => .error "Not connected to broker"
  | some l =>
    let context := p.contexts l.context
    if context.currentQueue.isEmpty then .error noQueue
    else
      match c.queues.lookup context.currentQueue with
      | none => .error notFound
      | some q =>
        let r := settles (p.queues q) m.deliveryTag
        if r.2.val = 0 then .error failed else .ok { p with queues := Function.update p.queues q r.1 }

def ack : Process → Client → Message → Except String Process :=
  settle queueAck "No active queue for acknowledgment" "Queue not found for acknowledgment" "Failed to acknowledge message"

def reject (requeue : Bool) : Process → Client → Message → Except String Process :=
  settle (fun q tag => queueReject q tag (if requeue then 1 else 0)) "No active queue for rejection" "Queue not found for rejection"
    "Failed to reject message"

/-! ## Runs -/

/-- `k`, `source` and `target` are clients, `i` is a C connection, `n` a `get`. -/
inductive ClientEvent where
  | create (k : Nat) (autoAck granted : Bool)
  | destroy (k : Nat)
  | move (source target : Nat)
  | connect (k : Nat) (ok : Bool)
  | disconnect (k : Nat)
  /-- The receiver thread finds the connection lost. -/
  | lose (i : Nat)
  | declareQueue (k : Nat) (name : Bytes) (capacity : UInt64) (durable : Bool)
  | bindQueue (k : Nat) (queueName exchangeName routingKey : Bytes)
  | declareExchange (k : Nat) (name : Bytes) (type : ExchangeType)
  | consume (k : Nat) (queueName : Bytes) (consumer : Option Nat)
  | getBegins (k : Nat) (queueName : Bytes)
  | getEnds (n : Nat)
  | incoming (i : Nat) (message : Core.Message) (deliveredAs : UInt64) (h : Handling)
  | ack (k : Nat) (m : Message)
  | reject (k : Nat) (m : Message) (requeue : Bool)

/-- The state after a call that may throw: nothing has changed then. -/
def orSame (p : Process) : Except String Process → Process
  | .ok p' => p'
  | .error _ => p

def thrown : Except String Process → Option String
  | .ok _ => none
  | .error what => some what

/-- The process after a call of `ack` or `reject`, noted. -/
def attempted (p : Process) (c : Client) (m : Message) (r : Except String Process) : Process :=
  { orSame p r with attempts := p.attempts ++ [⟨m, (p.connectedLink c).isSome, thrown r⟩] }

/-- The context that connection `i` gives its callbacks. -/
def callbackContext (p : Process) (i : Nat) : Option ClientContext := (p.callbackContexts i).map p.contexts

/-- `callback_context` written through. -/
def setCallbackContext (p : Process) (i : Nat) (context : Option ClientContext) : Process :=
  match p.callbackContexts i, context with
  | some j, some context => p.setContext j context
  | _, _ => p

/-- A message comes in on connection `i`, which calls only while connected. A value kept goes
    to the promise that is pending, if one is. -/
def incoming (p : Process) (i : Nat) (message : Core.Message) (deliveredAs : UInt64) (h : Handling) : Process :=
  if p.statuses i ≠ .connected then p
  else
    let before := callbackContext p i
    let r := onMessageCallback before message h p.heap
    { setCallbackContext p i r.context with
      heap := r.heap,
      values := match before.bind (·.messagePromise) with
        | some n => Function.update p.values n r.kept
        | none => p.values,
      kept := p.kept ++ r.kept.toList,
      handed := p.handed ++ (r.given.map fun m => ⟨m, deliveredAs⟩).toList }

/-- A call on client `k`, if there is one. -/
def onClient (p : Process) (k : Nat) (call : Client → Process) : Process :=
  match p.clients k with
  | none => p
  | some c => call c

/-- Client `k` is constructed, there being none. -/
def createClient (p : Process) (k : Nat) (autoAck granted : Bool) : Process :=
  match p.clients k with
  | some _ => p
  | none =>
    match newClient p autoAck granted with
    | .ok (c, p) => p.setClient k (some c)
    | .error _ => p

def clientStep (p : Process) : ClientEvent → Process
  | .create k autoAck granted => createClient p k autoAck granted
  | .destroy k => onClient p k (destroyClient p k)
  | .move source target =>
    onClient p source fun c =>
      match p.clients target with
      | none => moveClient p source target c
      | some old => moveAssign p source target c old
  | .connect k ok => onClient p k fun c => (connect p c ok).2
  | .disconnect k => onClient p k (disconnect p)
  | .lose i => connectionDisconnect p i
  | .declareQueue _ name capacity durable => declareQueue p name capacity durable
  | .bindQueue _ queueName exchangeName routingKey => bindQueue p queueName exchangeName routingKey
  | .declareExchange _ name type => declareExchange p name type
  | .consume k queueName consumer => onClient p k fun c => orSame p (consume p c queueName consumer)
  | .getBegins k queueName => onClient p k fun c => orSame p (getBegins p c queueName)
  | .getEnds n => (getEnds p n).2
  | .incoming i message deliveredAs h => incoming p i message deliveredAs h
  | .ack k m => onClient p k fun c => attempted p c m (ack p c m)
  | .reject k m requeue => onClient p k fun c => attempted p c m (reject requeue p c m)

/-- A process that has made nothing yet, beside the queues of the library. -/
def newProcess (queues : Nat → Queue Core.Message) (heap : Heap) : Process where
  clients _ := none
  statuses _ := .disconnected
  callbackContexts _ := none
  contexts _ := {}
  made := 0
  queues
  heap
  values _ := none
  gets _ := none
  promised := 0
  kept := []
  handed := []
  attempts := []

/-! ## What acknowledgment promises -/

/-- What is handed to a consumer has the tag its queue gave it, and the first `ack` or
    `reject` of it while connected goes through. -/
structure AcksReach (p : Process) : Prop where
  tagged : ∀ h ∈ p.handed, h.message.deliveryTag = h.deliveredAs ∧ h.message.deliveryTag ≠ 0
  apart : ∀ a ∈ p.handed, ∀ b ∈ p.handed, a.message.msg ≠ b.message.msg → a.message.deliveryTag ≠ b.message.deliveryTag
  settles : ∀ before a after, p.attempts = before ++ a :: after → a.connected = true → (∃ h ∈ p.handed, h.message = a.message) →
    (∀ b ∈ before, b.connected = true → b.message ≠ a.message) → a.thrown = none

/-- A message comes in only while a `get` is waiting, or no consumer is set. -/
def HandsNothing (p : Process) : ClientEvent → Prop
  | .incoming i _ _ _ =>
    p.statuses i = .connected → ∀ context, callbackContext p i = some context →
      context.messagePromise.isSome = true ∨ context.consumer = none
  | _ => True

/-! ## The callback -/

variable {p : Process} {c : Client} {k i : Nat} {e : ClientEvent}

@[simp] theorem callHandler_given (h : Handling) (message : Core.Message) (tag : UInt64) (heap : Heap) :
    (callHandler h message tag heap).given = some ⟨some message, true, tag⟩ := by
  unfold callHandler Message.wrap
  cases h.keeps <;> rfl

/-- A consumer is called when one is set and no `get` is waiting; the wrapper has the last tag
    of the context. -/
theorem callback_given (context : ClientContext) (message : Core.Message) (h : Handling) (heap : Heap) :
    (onMessageCallback (some context) message h heap).given =
      if context.messagePromise.isSome = false ∧ context.consumer.isSome = true then
        some ⟨some message, true, context.lastDeliveryTag⟩
      else none := by
  unfold onMessageCallback
  cases hpromise : context.messagePromise.isSome <;> cases hconsumer : context.consumer.isSome <;>
    cases hthrown : (callHandler h message context.lastDeliveryTag heap).thrown <;> simp [hpromise, hconsumer, hthrown]

/-- The callback never writes the tag. -/
theorem callback_tag {context context' : ClientContext} {message : Core.Message} {h : Handling} {heap : Heap}
    (hc : (onMessageCallback (some context) message h heap).context = some context') :
    context'.lastDeliveryTag = context.lastDeliveryTag := by
  unfold onMessageCallback at hc
  cases hpromise : context.messagePromise.isSome <;> cases hconsumer : context.consumer.isSome <;>
    cases hthrown : (callHandler h message context.lastDeliveryTag heap).thrown <;>
    simp only [hpromise, hconsumer, hthrown, Option.isSome_none, Option.isSome_some, if_true, if_false, Bool.false_eq_true,
      Option.some.injEq] at hc <;>
    subst hc <;> rfl

/-! ## What nothing writes -/

/-- What the step hands to a consumer. -/
def givenTo (p : Process) : ClientEvent → List Handed
  | .incoming i message deliveredAs h =>
    if p.statuses i ≠ .connected then []
    else ((onMessageCallback (callbackContext p i) message h p.heap).given.map fun m => ⟨m, deliveredAs⟩).toList
  | _ => []

/-- The maps are empty and the last tags 0. `given` has been handed on, and no `ack` or
    `reject` has gone through. -/
structure Untouched (given : List Handed) (p : Process) : Prop where
  queues : ∀ k c, p.clients k = some c → c.queues = []
  tags : ∀ i, (p.contexts i).lastDeliveryTag = 0
  handed : p.handed = given
  refused : ∀ a ∈ p.attempts, a.thrown ≠ none

variable {given : List Handed}

theorem Untouched.setClient (h : Untouched given p) {c : Option Client} (hc : ∀ c', c = some c' → c'.queues = []) :
    Untouched given (p.setClient k c) where
  queues j c' hj := by
    by_cases hjk : j = k
    · subst hjk
      exact hc c' (by simpa [Process.setClient] using hj)
    · exact h.queues j c' (by simpa [Process.setClient, hjk] using hj)
  tags := h.tags
  handed := h.handed
  refused := h.refused

theorem Untouched.setContext (h : Untouched given p) {context : ClientContext} (hc : context.lastDeliveryTag = 0) :
    Untouched given (p.setContext i context) where
  queues := h.queues
  tags j := by
    by_cases hj : j = i
    · subst hj
      simpa [Process.setContext] using hc
    · simpa [Process.setContext, hj] using h.tags j
  handed := h.handed
  refused := h.refused

theorem Untouched.setStatus (h : Untouched given p) {status : ConnectionStatus} : Untouched given (p.setStatus i status) :=
  ⟨h.queues, h.tags, h.handed, h.refused⟩

theorem Untouched.newClient (h : Untouched given p) {autoAck granted : Bool} {made : Client × Process}
    (hnew : newClient p autoAck granted = .ok made) : Untouched given made.2 ∧ made.1.queues = [] := by
  cases granted with
  | false => cases hnew
  | true =>
    cases hnew
    have hset : Untouched given ((p.setStatus p.made .disconnected).setContext p.made {}) := h.setStatus.setContext rfl
    exact ⟨⟨hset.queues, hset.tags, hset.handed, hset.refused⟩, rfl⟩

theorem Untouched.connectionDisconnect (h : Untouched given p) : Untouched given (connectionDisconnect p i) := by
  unfold Wrapper.connectionDisconnect
  split
  · exact h
  · exact h.setStatus

theorem Untouched.disconnect (h : Untouched given p) : Untouched given (disconnect p c) := by
  unfold Wrapper.disconnect
  cases c.link with
  | none => exact h
  | some l => exact h.connectionDisconnect

theorem Untouched.connect (h : Untouched given p) {ok : Bool} : Untouched given (connect p c ok).2 := by
  unfold Wrapper.connect connectionConnect
  cases c.link with
  | none => exact h
  | some l =>
    dsimp only
    split
    · exact h
    · split
      · exact h.setStatus
      · exact h.setStatus

theorem Untouched.moveClient (h : Untouched given p) (hc : c.queues = []) {source target : Nat} :
    Untouched given (moveClient p source target c) := by
  refine (h.setClient ?_).setClient ?_
  · rintro c' ⟨⟩
    exact hc
  · rintro c' ⟨⟩
    rfl

theorem Untouched.consume (h : Untouched given p) {queueName : Bytes} {consumer : Option Nat} :
    Untouched given (orSame p (consume p c queueName consumer)) := by
  unfold Wrapper.consume
  cases p.connectedLink c with
  | none => exact h
  | some l => exact h.setContext (h.tags l.context)

theorem Untouched.getBegins (h : Untouched given p) {queueName : Bytes} : Untouched given (orSame p (getBegins p c queueName)) := by
  unfold Wrapper.getBegins
  cases p.connectedLink c with
  | none => exact h
  | some l =>
    have hset : Untouched given (p.setContext l.context
        { p.contexts l.context with currentQueue := queueName, messagePromise := some p.promised }) :=
      h.setContext (h.tags l.context)
    exact ⟨hset.queues, hset.tags, hset.handed, hset.refused⟩

theorem Untouched.getEnds (h : Untouched given p) {n : Nat} : Untouched given (getEnds p n).2 := by
  unfold Wrapper.getEnds
  cases p.gets n with
  | none => exact h
  | some i =>
    have hover : Untouched given { p with gets := Function.update p.gets n none } := ⟨h.queues, h.tags, h.handed, h.refused⟩
    dsimp only
    split
    · exact hover
    · exact hover.setContext (h.tags i)

/-- With nothing in the map, no call of `ack` or `reject` goes through. -/
theorem settle_throws {settles : Queue Core.Message → UInt64 → Queue Core.Message × Out Core.Message} {noQueue notFound failed : String}
    {m : Message} (hc : c.queues = []) : ∃ what, settle settles noQueue notFound failed p c m = .error what := by
  unfold settle
  cases p.connectedLink c with
  | none => exact ⟨_, rfl⟩
  | some l =>
    rw [hc]
    dsimp only
    split
    · exact ⟨_, rfl⟩
    · exact ⟨_, rfl⟩

theorem Untouched.attempted (h : Untouched given p) {m : Message} {r : Except String Process} (hr : ∃ what, r = .error what) :
    Untouched given (attempted p c m r) := by
  obtain ⟨what, rfl⟩ := hr
  refine ⟨h.queues, h.tags, h.handed, fun a ha => ?_⟩
  rcases List.mem_append.mp ha with ha | ha
  · exact h.refused a ha
  · rw [List.mem_singleton.mp ha]
    exact Option.some_ne_none what

theorem Untouched.onClient (h : Untouched given p) {call : Client → Process} (hcall : ∀ c, c.queues = [] → Untouched given (call c)) :
    Untouched given (onClient p k call) := by
  unfold Wrapper.onClient
  cases hk : p.clients k with
  | none => exact h
  | some c => exact hcall c (h.queues k c hk)

theorem Untouched.setCallbackContext (h : Untouched given p) {context : Option ClientContext}
    (hc : ∀ c, context = some c → c.lastDeliveryTag = 0) : Untouched given (setCallbackContext p i context) := by
  unfold Wrapper.setCallbackContext
  cases p.callbackContexts i with
  | none => exact h
  | some j =>
    cases context with
    | none => exact h
    | some c => exact h.setContext (hc c rfl)

theorem Untouched.callbackContext (h : Untouched given p) {context : ClientContext} (hc : callbackContext p i = some context) :
    context.lastDeliveryTag = 0 := by
  obtain ⟨j, -, rfl⟩ := Option.map_eq_some_iff.mp hc
  exact h.tags j

theorem Untouched.incoming (h : Untouched given p) {message : Core.Message} {deliveredAs : UInt64} {handling : Handling} :
    Untouched (given ++ givenTo p (.incoming i message deliveredAs handling)) (incoming p i message deliveredAs handling) := by
  unfold Wrapper.incoming givenTo
  by_cases hs : p.statuses i = .connected
  · have hset : Untouched given
        (Wrapper.setCallbackContext p i (onMessageCallback (Wrapper.callbackContext p i) message handling p.heap).context) := by
      refine h.setCallbackContext fun c hc => ?_
      cases hbefore : Wrapper.callbackContext p i with
      | none =>
        rw [hbefore] at hc
        cases hc
      | some context =>
        rw [hbefore] at hc
        exact (callback_tag hc).trans (h.callbackContext hbefore)
    simp only [hs, ne_eq, not_true_eq_false, if_false]
    exact ⟨hset.queues, hset.tags, by rw [h.handed], hset.refused⟩
  · simpa [hs] using h

theorem step_untouched (h : Untouched given p) (e : ClientEvent) : Untouched (given ++ givenTo p e) (clientStep p e) := by
  have hsame : ∀ p', Untouched given p' → Untouched (given ++ []) p' := fun p' hp' => by rwa [List.append_nil]
  cases e with
  | create k autoAck granted =>
    refine hsame (createClient p k autoAck granted) ?_
    unfold createClient
    cases p.clients k with
    | some c => exact h
    | none =>
      cases hnew : newClient p autoAck granted with
      | error what => exact h
      | ok made =>
        obtain ⟨hmade, hqueues⟩ := h.newClient hnew
        refine hmade.setClient ?_
        rintro c ⟨⟩
        exact hqueues
  | destroy k => exact hsame _ (h.onClient fun c _ => h.disconnect.setClient (by simp))
  | move source target =>
    refine hsame _ (h.onClient fun c hc => ?_)
    cases p.clients target with
    | none => exact h.moveClient hc
    | some old =>
      dsimp only [moveAssign]
      split
      · exact h
      · exact h.disconnect.moveClient hc
  | connect k ok => exact hsame _ (h.onClient fun c _ => h.connect)
  | disconnect k => exact hsame _ (h.onClient fun c _ => h.disconnect)
  | lose i => exact hsame _ h.connectionDisconnect
  | declareQueue k name capacity durable => exact hsame _ h
  | bindQueue k queueName exchangeName routingKey => exact hsame _ h
  | declareExchange k name type => exact hsame _ h
  | consume k queueName consumer => exact hsame _ (h.onClient fun c _ => h.consume)
  | getBegins k queueName => exact hsame _ (h.onClient fun c _ => h.getBegins)
  | getEnds n => exact hsame _ h.getEnds
  | incoming i message deliveredAs handling => exact h.incoming
  | ack k m => exact hsame _ (h.onClient fun c hc => h.attempted (settle_throws hc))
  | reject k m requeue => exact hsame _ (h.onClient fun c hc => h.attempted (settle_throws hc))

/-! ## What is handed on -/

/-- All that was ever handed to a consumer has tag 0. -/
def Idle (p : Process) : Prop := ∃ given, Untouched given p ∧ ∀ h ∈ given, h.message.deliveryTag = 0

theorem given_tag (h : Untouched given p) : ∀ x ∈ givenTo p e, x.message.deliveryTag = 0 := by
  cases e with
  | incoming i message deliveredAs handling =>
    intro x hx
    by_cases hs : p.statuses i = .connected
    · cases hbefore : callbackContext p i with
      | none => simp [givenTo, hs, hbefore, onMessageCallback] at hx
      | some context =>
        simp only [givenTo, hs, ne_eq, not_true_eq_false, if_false, hbefore, callback_given, Option.mem_toList,
          Option.map_eq_some_iff] at hx
        obtain ⟨m, hm, rfl⟩ := hx
        split at hm
        · cases hm
          exact h.callbackContext hbefore
        · cases hm
    · simp [givenTo, hs] at hx
  | _ => exact fun x hx => nomatch hx

theorem step_idle (h : Idle p) (e : ClientEvent) : Idle (clientStep p e) := by
  obtain ⟨given, h, htags⟩ := h
  refine ⟨given ++ givenTo p e, step_untouched h e, fun x hx => ?_⟩
  rcases List.mem_append.mp hx with hx | hx
  · exact htags x hx
  · exact given_tag h x hx

variable {queues : Nat → Queue Core.Message} {heap : Heap}

theorem newProcess_idle : Idle (newProcess queues heap) :=
  ⟨[], ⟨by simp [newProcess], fun _ => rfl, rfl, by simp [newProcess]⟩, by simp⟩

theorem run_idle (es : List ClientEvent) : Idle (Run.run clientStep (newProcess queues heap) es) := by
  have hstep : ∀ p e, Idle p → Idle (clientStep p e) := fun _ e h => step_idle h e
  exact Run.run_inv hstep es newProcess_idle

theorem handsNothing_iff : HandsNothing p e ↔ givenTo p e = [] := by
  cases e with
  | incoming i message deliveredAs h =>
    simp only [HandsNothing, givenTo]
    by_cases hs : p.statuses i = .connected
    · cases hc : callbackContext p i with
      | none => simp [hs, onMessageCallback]
      | some context =>
        simp only [hs, callback_given]
        cases hpromise : context.messagePromise <;> cases hconsumer : context.consumer <;> simp [hpromise, hconsumer]
    · simp [hs]
  | _ => simp [HandsNothing, givenTo]

/-! ## Acknowledgments that reach the delivery -/

theorem acksReach_iff (h : Idle p) : AcksReach p ↔ p.handed = [] := by
  obtain ⟨given, h, htags⟩ := h
  constructor
  · intro hp
    refine List.eq_nil_iff_forall_not_mem.mpr fun x hx => ?_
    exact (hp.tagged x hx).2 (htags x (h.handed ▸ hx))
  · intro hp
    refine ⟨by simp [hp], by simp [hp], ?_⟩
    rintro before a after - - ⟨x, hx, -⟩
    simp [hp] at hx

/-- In every run: acknowledgments reach the delivery in every state exactly if nothing is ever
    handed to a consumer. -/
theorem acks_reach_iff (queues : Nat → Queue Core.Message) (heap : Heap) (es : List ClientEvent) :
    (∀ as, as <+: es → AcksReach (Run.run clientStep (newProcess queues heap) as)) ↔
      Run.Along clientStep HandsNothing (newProcess queues heap) es := by
  have hstep : ∀ p e, Idle p → p.handed = [] → (HandsNothing p e ↔ (clientStep p e).handed = []) := by
    rintro p e ⟨given, h, -⟩ hp
    obtain rfl : given = [] := h.handed.symm.trans hp
    rw [handsNothing_iff, (step_untouched h e).handed, List.nil_append]
  rw [← Run.along_iff (fun _ e h => step_idle h e) hstep newProcess_idle rfl]
  exact forall₂_congr fun as _ => acksReach_iff (run_idle as)

/-- A consumer of the queue "test" is handed a message the queue delivered under tag 1, and
    acknowledges it. -/
def acknowledging : List ClientEvent :=
  [.create 0 false true, .connect 0 true, .consume 0 [116, 101, 115, 116] (some 0), .incoming 0 aMessage 1 ⟨false, none⟩,
    .ack 0 ⟨some aMessage, true, 0⟩]

def acknowledged : Process := Run.run clientStep (newProcess (fun _ => emptyQueue) ⟨100, fun _ => false, [], []⟩) acknowledging

theorem a_delivery_cannot_be_acknowledged :
    ¬ AcksReach acknowledged ∧ acknowledged.handed = [⟨⟨some aMessage, true, 0⟩, 1⟩] ∧
      acknowledged.attempts = [⟨⟨some aMessage, true, 0⟩, true, some "Queue not found for acknowledgment"⟩] := by
  have hhanded : acknowledged.handed = [⟨⟨some aMessage, true, 0⟩, 1⟩] := rfl
  refine ⟨fun h => ?_, hhanded, rfl⟩
  have htag := h.tagged ⟨⟨some aMessage, true, 0⟩, 1⟩ (by rw [hhanded]; exact List.mem_singleton.mpr rfl)
  exact htag.2 rfl

/-- Whatever is handed to a consumer has tag 0, and every `ack` and `reject` throws. -/
theorem acks_never_reach (queues : Nat → Queue Core.Message) (heap : Heap) (es : List ClientEvent) :
    (∀ h ∈ (Run.run clientStep (newProcess queues heap) es).handed, h.message.deliveryTag = 0) ∧
      ∀ a ∈ (Run.run clientStep (newProcess queues heap) es).attempts, a.thrown ≠ none := by
  obtain ⟨given, h, htags⟩ : Idle (Run.run clientStep (newProcess queues heap) es) := run_idle es
  exact ⟨fun x hx => htags x (h.handed ▸ hx), h.refused⟩

end RabbitMQ.Wrapper
