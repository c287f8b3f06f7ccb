/-
  RabbitMQ.Core.Wire — `send_message_data` and `receive_message_data`: a message as bytes on
  a stream socket.

  A socket is seen from the two sides that matter. `Outlet` is the writing side: the bytes
  appended so far and what each `send` call will do. `Inlet` is the reading side: the bytes
  ahead and what each `recv` call will do; a call that may return up to `n` bytes returns
  between one byte and what was asked, or none at the end of the stream. Integers travel in
  the byte order of the machine, the same at both ends.

  `receive_message_data` is one `recv` after another, each compared with the length asked
  for; it is written here in stages (`recvString` for the exchange and for the routing key,
  `recvBody`, `recvProperties`), each freeing on its own exits what was allocated so far. A
  request for memory that is refused sets `errno`, as a `recv` that fails does; `free` does not.
  Every store into an allocated buffer is noted in `writes` with the end of the range.
-/

import RabbitMQ.Core.Message
import RabbitMQ.Lib.Bytes
import RabbitMQ.Lib.Reader

namespace RabbitMQ.Core

open Lib
open Lib.Bytes (leBytes ofLE)
open Lib.Reader (attempt)

/-- "RAMQ". -/
def MESSAGE_MAGIC : UInt32 := 0x52414D51

def u32 (n : UInt32) : Bytes := leBytes 4 n.toNat

/-! ## Writing -/

inductive SendOutcome where
  | all
  | short (n : Nat)
  | error
  deriving DecidableEq, Repr

structure Outlet where
  stream : Bytes
  outcome : Nat → SendOutcome
  calls : Nat

/-- `send`: the bytes written, or none for -1. -/
def send (buf : Bytes) (o : Outlet) : Option Nat × Outlet :=
  match o.outcome o.calls with
  | .all => (some buf.length, { o with stream := o.stream ++ buf, calls := o.calls + 1 })
  | .short n =>
    (some (buf.take n).length, { o with stream := o.stream ++ buf.take n, calls := o.calls + 1 })
  | .error => (none, { o with calls := o.calls + 1 })

/-- The buffers `send_message_data` passes to `send`, in order; none where `strlen` is
    given NULL. Lengths are cut to 32 bits. -/
def sends (m : Fields) : Option (List Bytes) :=
  match m.exchange, m.routingKey with
  | some exchange, some routingKey =>
    let exchangeLen := UInt32.ofNat exchange.strlen
    let routingKeyLen := UInt32.ofNat routingKey.strlen
    let bodySize := m.bodySize.toUInt32
    some ([u32 MESSAGE_MAGIC,
           u32 exchangeLen, exchange.bytes.take exchangeLen.toNat,
           u32 routingKeyLen, routingKey.bytes.take routingKeyLen.toNat,
           u32 bodySize] ++
          (if 0 < bodySize then [(m.body.getD []).take bodySize.toNat] else []) ++
          [u32 m.priority, leBytes 8 m.expiration.toNat, [m.persistent]])
  | _, _ => none

/-- Each buffer in turn, until one is not written in full. -/
def sendEach : List Bytes → Outlet → Nat × Outlet
  | [], o => (1, o)
  | buf :: bufs, o =>
    let r := send buf o
    if r.1 = some buf.length then sendEach bufs r.2 else (0, r.2)

def sendMessageData (fd : Int) (m : Fields) (o : Outlet) : Option (Nat × Outlet) :=
  if fd < 0 then some (0, o) else (sends m).map (sendEach · o)

/-! ## Reading -/

inductive RecvOutcome where
  | upTo (n : Nat)
  | error (errno : Nat)
  deriving DecidableEq, Repr

structure Inlet where
  input : Bytes
  outcome : Nat → RecvOutcome
  calls : Nat

structure World where
  inlet : Inlet
  heap : Heap
  errno : Nat
  writes : List (Ptr × Nat)

/-- `recv`: the bytes read, or none for -1. -/
def recv (n : Nat) (w : World) : Option Bytes × World :=
  let i := w.inlet
  match i.outcome i.calls with
  | .upTo k =>
    let n := min n (max 1 k)
    (some (i.input.take n), { w with inlet := { i with input := i.input.drop n, calls := i.calls + 1 } })
  | .error errno => (none, { w with inlet := { i with calls := i.calls + 1 }, errno })

/-- `recv(..) != n`, into a variable. -/
def recvFull (n : Nat) (w : World) : Option Bytes × World :=
  let r := recv n w
  (r.1.bind fun got => if got.length = n then some got else none, r.2)

/-- `recv(..) != n`, into a buffer. -/
def recvInto (buf : Ptr) (n : Nat) (w : World) : Option Bytes × World :=
  let got := (recv n w).1.getD []
  let r := recvFull n w
  (r.1, { r.2 with writes := r.2.writes ++ [(buf, got.length)] })

def release (held : List Ptr) (w : World) : World := { w with heap := w.heap.frees held }

/-- A length, a buffer one byte longer in 32-bit arithmetic, the bytes, a NUL. -/
def recvString (held : List Ptr) (w : World) : Option (Ptr × CString) × World :=
  attempt (recvFull 4 w) (release held) fun len w =>
  let len := UInt32.ofNat (ofLE len)
  match malloc w.heap (len + 1).toNat with
  | (none, heap) => (none, release held { w with heap, errno := ENOMEM })
  | (some buf, heap) =>
    attempt (recvInto buf len.toNat { w with heap }) (release (held ++ [buf])) fun bytes w =>
    (some (buf, CString.ofBuffer bytes), { w with writes := w.writes ++ [(buf, len.toNat + 1)] })

/-- The body size, with the buffer and the bytes when it is not 0. -/
def recvBody (held : List Ptr) (w : World) : Option (UInt32 × Option (Ptr × Bytes)) × World :=
  attempt (recvFull 4 w) (release held) fun size w =>
  let size := UInt32.ofNat (ofLE size)
  if 0 < size then
    match malloc w.heap size.toNat with
    | (none, heap) => (none, release held { w with heap, errno := ENOMEM })
    | (some buf, heap) =>
      attempt (recvInto buf size.toNat { w with heap }) (release (held ++ [buf])) fun bytes w =>
      (some (size, some (buf, bytes)), w)
  else (some (size, none), w)

def recvProperties (m : Message) (w : World) : Option Message × World :=
  let giveUp := fun (w : World) => { w with heap := messageFree m w.heap }
  attempt (recvFull 4 w) giveUp fun priority w =>
  attempt (recvFull 8 w) giveUp fun expiration w =>
  attempt (recvFull 1 w) giveUp fun persistent w =>
  (some { m with priority := UInt32.ofNat (ofLE priority), expiration := UInt64.ofNat (ofLE expiration),
                 persistent := UInt8.ofNat (ofLE persistent) }, w)

/-- The message made of what was read; the three buffers are freed either way. -/
def recvCreate (exchange routingKey : Ptr × CString) (body : UInt32 × Option (Ptr × Bytes)) (w : World) :
    Option Message × World :=
  let r := messageCreate (some exchange.2) (some routingKey.2) (body.2.map (·.2)) body.1.toUInt64 w.heap
  let errno := if w.heap.Refused r.2 then ENOMEM else w.errno
  (r.1, release ([exchange.1, routingKey.1] ++ (body.2.map (·.1)).toList) { w with heap := r.2, errno })

def receiveMessageData (fd : Int) (w : World) : Option Message × World :=
  if fd < 0 then (none, w) else
  attempt (recvFull 4 w) id fun magic w =>
  if UInt32.ofNat (ofLE magic) ≠ MESSAGE_MAGIC then (none, w) else
  attempt (recvString [] w) id fun exchange w =>
  attempt (recvString [exchange.1] w) id fun routingKey w =>
  attempt (recvBody [exchange.1, routingKey.1] w) id fun body w =>
  attempt (recvCreate exchange routingKey body w) id recvProperties

/-! ## Frames -/

/-- A message the format can carry: strings that are there, lengths that fit. -/
structure Frame where
  exchange : CString
  routingKey : CString
  body : Bytes
  priority : UInt32
  expiration : UInt64
  persistent : UInt8
  exchangeFits : exchange.strlen ≤ 2 ^ 32 - 2
  routingKeyFits : routingKey.strlen ≤ 2 ^ 32 - 2
  bodyFits : body.length < 2 ^ 32

namespace Frame

def fields (f : Frame) : Fields where
  exchange := some f.exchange
  routingKey := some f.routingKey
  body := if f.body = [] then none else some f.body
  bodySize := UInt64.ofNat f.body.length
  priority := f.priority
  expiration := f.expiration
  persistent := f.persistent

/-- The bytes on the wire. -/
def encode (f : Frame) : Bytes := ((sends f.fields).getD []).flatten

/-- The lengths the reader asks for, in order. -/
def requests (f : Frame) : List Nat :=
  [4, 4, f.exchange.strlen, 4, f.routingKey.strlen, 4] ++ (if f.body = [] then [] else [f.body.length]) ++ [4, 8, 1]

end Frame

end RabbitMQ.Core
