import Mathlib.Algebra.Ring.Nat
import Mathlib.Data.Option.Basic

/-! The wire format of protocol buffers: the fields of a message, and the size of a
number.
-/

namespace EtcdRaft.WireFormat

/-- The value of a field. Values of a fixed width are skipped. -/
inductive Value where
  | varint (v : Nat)
  | bytes (b : List UInt8)
  | fixed
deriving DecidableEq

/-- A number in groups of seven bits, the least significant one first, in at most `left`
bytes, and the bytes after it.
-/
def varint : Nat → List UInt8 → Option (Nat × List UInt8)
  | 0, _ | _, [] => none
  | left + 1, b :: rest =>
      if b.toNat < 128 then
        some (b.toNat, rest)
      else
        (varint left rest).map fun (v, rest) => (b.toNat - 128 + 128 * v, rest)

/-- A number of 64 bits. -/
def uint64 (data : List UInt8) : Option (Nat × List UInt8) :=
  (varint 10 data).filter fun (v, _) => v < 2 ^ 64

/-- The first `n` bytes, and the bytes after them. -/
def splitBytes (n : Nat) (data : List UInt8) : Option (List UInt8 × List UInt8) :=
  if n ≤ data.length then some (data.splitAt n) else none

/-- The value of a field with the given wire type, and the bytes after it. Groups are
refused.
-/
def value (wireType : Nat) (data : List UInt8) : Option (Value × List UInt8) :=
  match wireType with
  | 0 => (uint64 data).map fun (v, rest) => (.varint v, rest)
  | 1 => (splitBytes 8 data).map fun (_, rest) => (.fixed, rest)
  | 2 => do
      let (n, rest) ← uint64 data
      let (b, rest) ← splitBytes n rest
      return (.bytes b, rest)
  | 5 => (splitBytes 4 data).map fun (_, rest) => (.fixed, rest)
  | _ => none

/-- The fields of a message with at most `left` of them, each with its number. -/
def fieldsUpTo : Nat → List UInt8 → Option (List (Nat × Value))
  | _, [] => some []
  | 0, _ => none
  | left + 1, data => do
      let (tag, rest) ← uint64 data
      let (v, rest) ← value (tag % 8) rest
      let fields ← fieldsUpTo left rest
      return (tag / 8, v) :: fields

/-- The fields of a message. Each has a byte at least. -/
def fields (data : List UInt8) : Option (List (Nat × Value)) := fieldsUpTo data.length data

/-- The bytes that a number takes. -/
def sizeVarint (v : Nat) : Nat := Nat.log2 v / 7 + 1

example : fields [0x08, 0x96, 0x01, 0x12, 2, 7, 8]
    = some [(1, .varint 150), (2, .bytes [7, 8])] := by
  decide

example : sizeVarint 127 = 1 ∧ sizeVarint 128 = 2 := by decide

end EtcdRaft.WireFormat
