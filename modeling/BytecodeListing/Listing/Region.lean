import BytecodeListing.Text.Hex

/-!
# Data regions

A data region is a run of bytes that cannot be assumed to be reached by
execution. It grows by whole instructions, opcode first, and is written as one
line.
-/

namespace BytecodeListing

/-- A run of bytes that is not assumed to be code. -/
structure Region where
  start : Nat
  bytes : Array UInt8
  deriving DecidableEq, Repr

namespace Region

/-- The region that starts at an offset and holds nothing yet. -/
def empty (start : Nat) : Region :=
  ⟨start, #[]⟩

/-- The region with one more instruction: its opcode, then its operand. -/
def absorb : Region → UInt8 → List UInt8 → Region
  | ⟨start, bytes⟩, opcode, operand => ⟨start, bytes.push opcode ++ operand⟩

/-- The line of data that starts at an offset. -/
def line (start : Nat) (bytes : List UInt8) : List Char :=
  Hex.ofOffset start ++ ": DATA 0x".toList ++ Hex.ofBytes bytes

/-- The line of a region. -/
def text (r : Region) : List Char :=
  line r.start r.bytes.toList

@[simp] theorem start_absorb (r : Region) (opcode : UInt8)
    (operand : List UInt8) : (r.absorb opcode operand).start = r.start := rfl

@[simp] theorem toList_absorb (r : Region) (opcode : UInt8)
    (operand : List UInt8) :
    (r.absorb opcode operand).bytes.toList =
      r.bytes.toList ++ opcode :: operand := by
  simp [absorb]

end Region

end BytecodeListing
