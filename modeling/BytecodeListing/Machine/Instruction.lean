import BytecodeListing.Text.Hex

/-!
# Instructions

One decoded instruction: where it was found, what it is called, the operand it
declares and the operand bytes that were there to read. The operand read is
shorter than the width declared only where the code ends.
-/

namespace BytecodeListing

/-- One decoded instruction. -/
structure Instruction where
  offset : Nat
  opcode : UInt8
  mnemonic : String
  /-- The operand bytes declared, whether or not they were present. -/
  width : Nat
  isPush : Bool
  /-- The operand bytes read. -/
  operand : List UInt8
  deriving DecidableEq, Repr

namespace Instruction

/-- The text of an instruction: its mnemonic, followed by the operand if there
are operand bytes. -/
def text (insn : Instruction) : List Char :=
  if insn.operand.isEmpty then
    insn.mnemonic.toList
  else
    insn.mnemonic.toList ++ [' ', '0', 'x'] ++ Hex.ofBytes insn.operand

theorem text_of_operand_nil {insn : Instruction} (h : insn.operand = []) :
    insn.text = insn.mnemonic.toList := by
  simp [text, h]

theorem text_of_operand_ne_nil {insn : Instruction} (h : insn.operand ≠ []) :
    insn.text =
      insn.mnemonic.toList ++ [' ', '0', 'x'] ++ Hex.ofBytes insn.operand := by
  simp [text, h]

end Instruction

end BytecodeListing
