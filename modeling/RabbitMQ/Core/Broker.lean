/-
  RabbitMQ.Core.Broker — `broker.c`: routing a message to the bound queues, forwarding it to
  consumers, and one turn of a client's handler thread.

  Queues and exchanges are the objects at a handle; the broker's tables and the bindings
  hold handles, in the order they were added, never more than the tables have room for.
  `client_connections` and the table of consumers are part of the server, as are the heap
  and the sockets' writing sides, by descriptor.

  `strcmp`, `strchr` and `strlen` of NULL do not return; a result of none says that the
  program got there. (A string is NULL where a `strdup` was refused.) Messages are freed
  through `messageFree` only, so the heap's list of frees tells which.
-/

import RabbitMQ.Core.Queue
import RabbitMQ.Core.Wire

namespace RabbitMQ.Core

open Lib

/-! ## The server's state -/

def MAX_EXCHANGES : Nat := 8
def MAX_BINDINGS : Nat := 32
def MAX_CONNECTIONS : Nat := 100

inductive ExchangeType where
  | direct
  | fanout
  | topic
  deriving DecidableEq, Repr

structure Exchange where
  name : Option CString
  type : ExchangeType
  deriving DecidableEq

structure Binding where
  exchange : Nat
  queue : Nat
  routingKey : Option CString
  deriving DecidableEq

structure Broker where
  exchanges : List Nat
  bindings : List Binding
  exchangesFit : exchanges.length ≤ MAX_EXCHANGES
  bindingsFit : bindings.length ≤ MAX_BINDINGS

structure ClientConnection where
  fd : Int
  isConsumer : Bool
  queueName : CString
  running : Bool
  deriving DecidableEq

structure ConsumerInfo where
  clientIndex : Nat
  queueName : CString
  deriving DecidableEq

structure Server where
  heap : Heap
  queues : Nat → Queue Message
  exchanges : Nat → Exchange
  broker : Broker
  clients : Nat → ClientConnection
  consumers : List ConsumerInfo
  outlets : Int → Outlet

/-- `strcmp(a, b) == 0`. -/
def strcmpEq : Option CString → Option CString → Option Bool
  | some a, some b => some (a = b)
  | _, _ => none

/-! ## Consumers -/

/-- What `strncpy` leaves in a buffer of 64 bytes. -/
def copyName (s : CString) : CString := CString.ofBuffer (s.bytes.take 63)

def forwardStep (queueName : CString) (m : Message) (s : Server) (c : ConsumerInfo) : Option Server :=
  if c.queueName = queueName then
    let client := s.clients c.clientIndex
    if client.fd ≠ -1 ∧ client.running then
      (sendMessageData client.fd m.toFields (s.outlets client.fd)).map fun r =>
        { s with outlets := Function.update s.outlets client.fd r.2 }
    else some s
  else some s

def forwardMessageToConsumers (queueName : Option CString) (m : Message) (s : Server) : Option Server :=
  match queueName with
  | none => some s
  | some queueName => s.consumers.foldlM (forwardStep queueName m) s

def registerConsumer (clientIndex : Nat) (queueName : CString) (s : Server) : Nat × Server :=
  if MAX_CONNECTIONS ≤ clientIndex then (0, s)
  else if MAX_CONNECTIONS ≤ s.consumers.length then (0, s)
  else
    (1, { s with
      consumers := s.consumers ++ [⟨clientIndex, copyName queueName⟩]
      clients := Function.update s.clients clientIndex
        { s.clients clientIndex with isConsumer := true, queueName := copyName queueName } })

/-! ## Routing -/

/-- "#" matches everything, "*" a topic without a dot, anything else itself. -/
def matchTopic (pattern : CString) (topic : Option CString) : Option Bool :=
  if pattern.bytes = [35] then some true
  else if pattern.bytes = [42] then topic.map fun t => 46 ∉ t.bytes
  else strcmpEq (some pattern) topic

/-- The condition of the loop of `broker_route_message` for the exchange's type. -/
def bindingMatches (s : Server) (exchange : Nat) (routingKey : Option CString) (b : Binding) : Option Bool :=
  if b.exchange ≠ exchange then some false
  else
    match (s.exchanges exchange).type with
    | .fanout => some true
    | .direct => if b.routingKey = none then some false else strcmpEq b.routingKey routingKey
    | .topic =>
      match b.routingKey with
      | none => some false
      | some pattern => matchTopic pattern routingKey

/-- The body of the loop: a clone of the message into the binding's queue. -/
def routeTo (message : Message) (b : Binding) (s : Server) (routed : Nat) : Option (Server × Nat) :=
  match messageClone message s.heap with
  | (none, heap) => some ({ s with heap }, routed)
  | (some clone, heap) =>
    let r := queueTryEnqueue (s.queues b.queue) (some clone)
    let s := { s with heap, queues := Function.update s.queues b.queue r.2 }
    if r.1 ≠ 0 then (forwardMessageToConsumers r.2.name clone s).map fun s => (s, routed + 1)
    else some ({ s with heap := messageFree clone s.heap }, routed)

/-- The three loops differ in the condition only. -/
def routeLoop (exchange : Nat) (message : Message) : List Binding → Server → Nat → Option (Server × Nat)
  | [], s, routed => some (s, routed)
  | b :: bs, s, routed =>
    match bindingMatches s exchange message.routingKey b with
    | none => none
    | some false => routeLoop exchange message bs s routed
    | some true => (routeTo message b s routed).bind fun r => routeLoop exchange message bs r.1 r.2

def brokerRouteMessage (exchange : Nat) (message : Message) (s : Server) : Option (Nat × Server) :=
  (routeLoop exchange message s.broker.bindings s 0).map fun (s, routed) =>
    if routed = 0 then (routed, { s with heap := messageFree message s.heap })
    else if routed = 1 then (routed, s)
    else (routed, { s with heap := messageFree message s.heap })

def brokerPublish (exchange : Nat) (message : Message) (s : Server) : Option (Nat × Server) :=
  match messageClone message s.heap with
  | (none, heap) => some (0, { s with heap })
  | (some msgClone, heap) =>
    (brokerRouteMessage exchange msgClone { s with heap }).map fun (routed, s) =>
      if routed = 0 then (0, { s with heap := messageFree msgClone s.heap }) else (1, s)

/-- The first exchange of that name; none inside where there is no such exchange. -/
def findExchange (exchanges : Nat → Exchange) (name : CString) : List Nat → Option (Option Nat)
  | [] => some none
  | e :: es =>
    match strcmpEq (exchanges e).name (some name) with
    | none => none
    | some true => some (some e)
    | some false => findExchange exchanges name es

def brokerGetExchange (s : Server) (name : Option CString) : Option (Option Nat) :=
  match name with
  | none => some none
  | some name => findExchange s.exchanges name s.broker.exchanges

/-! ## A client's handler thread -/

/-- "consumer" -/
def CONSUMER : CString := ⟨[99, 111, 110, 115, 117, 109, 101, 114], by decide⟩

/-- "register" -/
def REGISTER : CString := ⟨[114, 101, 103, 105, 115, 116, 101, 114], by decide⟩

def isRegistration (m : Fields) : Option Bool :=
  match strcmpEq m.exchange (some CONSUMER) with
  | none => none
  | some false => some false
  | some true => (strcmpEq m.routingKey (some REGISTER)).map fun eq => eq && m.body.isSome && decide (0 < m.bodySize)

/-- The queue name in a registration: at most 63 bytes of the body. -/
def registeredName (m : Fields) : CString := CString.ofBuffer ((m.body.getD []).take (min m.bodySize.toNat 63))

/-- What the loop does with a message received from client `i`. -/
def handleMessage (i : Nat) (m : Message) (s : Server) : Option Server :=
  match isRegistration m.toFields with
  | none => none
  | some true =>
    let r := registerConsumer i (registeredName m.toFields) s
    some { r.2 with heap := messageFree m r.2.heap }
  | some false =>
    if (s.clients i).isConsumer then some { s with heap := messageFree m s.heap }
    else
      match brokerGetExchange s m.exchange with
      | none => none
      | some none => some { s with heap := messageFree m s.heap }
      | some (some exchange) => (brokerPublish exchange m s).map (·.2)

/-- The thread that serves a client: the reading side of its socket and its `errno`. -/
structure Handler where
  server : Server
  inlet : Inlet
  errno : Nat
  writes : List (Ptr × Nat)
  exited : Bool

/-- What the thread reads from. -/
def Handler.world (h : Handler) : World := ⟨h.inlet, h.server.heap, h.errno, h.writes⟩

def Handler.afterRead (h : Handler) (w : World) : Handler :=
  { h with inlet := w.inlet, errno := w.errno, writes := w.writes, server := { h.server with heap := w.heap } }

/-- One turn of the loop of `client_handler_thread` for client `i`. -/
def clientHandlerTurn (i : Nat) (h : Handler) : Option Handler :=
  if h.exited then some h
  else if !(h.server.clients i).running then some { h with exited := true }
  else
    match receiveMessageData (h.server.clients i).fd h.world with
    | (none, w) => some { h.afterRead w with exited := true }
    | (some m, w) => (handleMessage i m (h.afterRead w).server).map fun server => { h.afterRead w with server }

end RabbitMQ.Core
