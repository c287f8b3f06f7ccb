/-
  RabbitMQ.Core.Connection — `connection.c`: the receiver thread and `connection_send`.

  The receiver thread is a loop; `receiverTurn` is one turn of it, from the check of
  `running` to the end of the body. What it hands to `on_message` is noted in order. Apart
  from it, only `connection_disconnect` (`disconnectBegins`: the part before it waits for
  the thread) writes `running`. Callbacks and logging leave `errno` as it is.

  `connection_send` holds the mutex only while it looks at the status. Its critical section
  and each of its `send` calls is a step (`sendStep`); the calls in progress take their
  steps in any order.
-/

import RabbitMQ.Core.Wire

namespace RabbitMQ.Core

open Lib

inductive ConnectionStatus where
  | disconnected
  | connecting
  | connected
  | failed
  deriving DecidableEq, Repr

/-- `onMessage` and `onDisconnect`: whether the callback is set. -/
structure Connection where
  socketFd : Int
  status : ConnectionStatus
  running : UInt8
  onMessage : Bool
  onDisconnect : Bool
  deriving DecidableEq

/-! ## The receiver thread -/

def ENOTCONN : Nat := 107
def ECONNRESET : Nat := 104
def EPIPE : Nat := 32

/-- The `errno` values the thread takes for a lost connection. -/
def Lost (errno : Nat) : Prop := errno = ECONNRESET ∨ errno = ENOTCONN ∨ errno = EPIPE

instance (errno : Nat) : Decidable (Lost errno) :=
  inferInstanceAs (Decidable (errno = ECONNRESET ∨ errno = ENOTCONN ∨ errno = EPIPE))

structure Receiver where
  conn : Connection
  world : World
  exited : Bool
  /-- What `on_message` was called with. -/
  delivered : List Message
  /-- The calls of `on_disconnect`. -/
  disconnects : Nat

def receiverTurn (r : Receiver) : Receiver :=
  if r.exited then r
  else if r.conn.running = 0 then { r with exited := true }
  else
    match receiveMessageData r.conn.socketFd r.world with
    | (some message, world) =>
      if r.conn.onMessage then { r with world, delivered := r.delivered ++ [message] }
      else { r with world := { world with heap := messageFree message world.heap } }
    | (none, world) =>
      if Lost world.errno then
        { r with world, conn := { r.conn with running := 0, status := .disconnected }, exited := true,
                 disconnects := r.disconnects + if r.conn.onDisconnect then 1 else 0 }
      else { r with world }

def disconnectBegins (r : Receiver) : Receiver :=
  if r.conn.status = .connected then { r with conn := { r.conn with running := 0 } } else r

/-- `errno`: between two turns, a callback or `usleep` leaves this in it. -/
inductive ReceiverEvent where
  | turn
  | disconnect
  | errno (errno : Nat)
  deriving DecidableEq, Repr

def receiverStep (r : Receiver) : ReceiverEvent → Receiver
  | .turn => receiverTurn r
  | .disconnect => disconnectBegins r
  | .errno errno => { r with world := { r.world with errno } }

/-! ## Sending -/

/-- How far a call of `connection_send` has come. -/
inductive Progress where
  | called
  | sending (fd : Int) (left : List Bytes)
  | returned (val : Nat)
  deriving DecidableEq, Repr

structure Sending where
  conn : Connection
  outlet : Outlet
  progress : Nat → Progress

/-- The next step of call number `i`, whose argument is `message i`. A descriptor below 0
    and a message `strlen` cannot read never get to `send`. -/
def sendStep (message : Nat → Fields) (s : Sending) (i : Nat) : Sending :=
  let go := fun (p : Progress) => { s with progress := Function.update s.progress i p }
  match s.progress i with
  | .called =>
    if s.conn.status ≠ .connected then go (.returned 0)
    else if s.conn.socketFd < 0 then go (.returned 0)
    else
      match sends (message i) with
      | none => s
      | some bufs => go (.sending s.conn.socketFd bufs)
  | .sending _ [] => go (.returned 1)
  | .sending fd (buf :: left) =>
    let r := send buf s.outlet
    if r.1 = some buf.length then { go (.sending fd left) with outlet := r.2 }
    else { go (.returned 0) with outlet := r.2 }
  | .returned _ => s

/-- A whole call, when no other is in progress. Neither a failure nor a success writes the
    status. -/
def connectionSend (c : Connection) (m : Fields) (o : Outlet) : Option (Nat × Outlet) :=
  if c.status ≠ .connected then some (0, o) else sendMessageData c.socketFd m o

end RabbitMQ.Core
