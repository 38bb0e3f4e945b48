import BytecodeListing.Machine.Cursor
import BytecodeListing.Machine.Instruction
import BytecodeListing.Machine.Opcode

/-!
# Instruction tables

A table says for every byte how the instruction that starts with it is read.
The entry may report another opcode than the byte, read more or fewer operand
bytes than the width it declares, or misplace the instruction; a table made for
a machine does none of this. `Table.evm` is the table of the EVM.
-/

namespace BytecodeListing

/-- How the instruction that starts with some byte is read. -/
structure Entry where
  mnemonic : String
  /-- The opcode reported. -/
  opcode : UInt8
  /-- The number of operand bytes declared. -/
  width : Nat
  isPush : Bool
  /-- The number of operand bytes read. -/
  take : Nat := width
  /-- How far behind its place the instruction is reported. -/
  shift : Nat := 0
  deriving DecidableEq, Repr

/-- An entry for every byte. -/
abbrev Table := UInt8 → Entry

namespace Table

/-- Reads one instruction. Behind the end of the code a zero byte is supplied,
and there is no operand to read. -/
def decode (t : Table) (c : Cursor) : Instruction × Cursor :=
  let first := c.next
  let entry := t (first.1.getD 0)
  let operand := first.2.take entry.take
  ({ offset := c.pc + entry.shift
     opcode := entry.opcode
     mnemonic := entry.mnemonic
     width := entry.width
     isPush := entry.isPush
     operand := operand.1 }, operand.2)

/-- The EVM: an unassigned byte is named by its value, and every opcode reads
the operand it declares. -/
def evm : Table := fun b =>
  { mnemonic := (Opcode.name? b).getD
      (String.ofList ("UNKNOWN_0x".toList ++ Hex.ofByte b))
    opcode := b
    width := Opcode.width b
    isPush := Opcode.isPush b }

@[simp] theorem code_decode (t : Table) (c : Cursor) :
    (t.decode c).2.code = c.code := by
  simp [decode]

/-- Reading an instruction uses up at least one byte. -/
theorem length_rest_decode_lt (t : Table) {c : Cursor} (h : c.rest ≠ []) :
    (t.decode c).2.rest.length < c.rest.length :=
  Cursor.length_rest_take_next_lt h _

end Table

end BytecodeListing
