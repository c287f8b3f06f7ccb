/-
  RabbitMQ.Core.Memory — the process heap and the C strings kept in it.

  The heap is that of `Lib.Alloc`, with two kinds of block: `Message` objects and all else.
  A C string is its bytes before the terminating NUL, so it has no NUL among them; what a
  byte buffer says as a string ends at its first NUL (`ofBuffer`).
-/

import Mathlib.Data.List.TakeWhile
import RabbitMQ.Lib.Alloc

namespace RabbitMQ.Core

open Lib

abbrev Bytes := List UInt8

/-! ## Strings -/

structure CString where
  bytes : Bytes
  nulFree : 0 ∉ bytes
  deriving DecidableEq

namespace CString

theorem ext {s t : CString} (h : s.bytes = t.bytes) : s = t := by
  obtain ⟨b, hb⟩ := s
  obtain ⟨b', hb'⟩ := t
  cases h
  rfl

def strlen (s : CString) : Nat := s.bytes.length

/-- The string that starts at a buffer whose last byte is followed by a NUL. -/
def ofBuffer (b : Bytes) : CString where
  bytes := b.takeWhile (· != 0)
  nulFree h := by simpa using List.mem_takeWhile_imp h

theorem ofBuffer_bytes (s : CString) : ofBuffer s.bytes = s := by
  obtain ⟨b, hb⟩ := s
  have h : b.takeWhile (· != 0) = b := by
    rw [List.takeWhile_eq_self_iff]
    intro x hx
    simpa using ne_of_mem_of_not_mem hx hb
  simp only [ofBuffer, h]

end CString

/-! ## The heap -/

inductive Kind where
  | plain
  | message
  deriving DecidableEq

abbrev Ptr := Alloc.Ptr Kind

abbrev Heap := Alloc.Heap Kind

/-- What a request that is refused leaves in `errno`. -/
def ENOMEM : Nat := 12

def malloc (h : Heap) (n : Nat) : Option Ptr × Heap := h.request .plain n

/-- `malloc(sizeof(Message))`, with the size of a 64-bit build. -/
def mallocMessage (h : Heap) : Option Ptr × Heap := h.request .message 56

/-- `strdup`: NULL when the request is refused. -/
def strdup (h : Heap) (s : CString) : Option Ptr × Heap := malloc h (s.strlen + 1)

end RabbitMQ.Core
