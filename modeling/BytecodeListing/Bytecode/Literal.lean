import BytecodeListing.Text.Blank
import BytecodeListing.Text.Hex
import BytecodeListing.Text.Quoted

/-!
# Bytecode as text

Bytecode is written as hexadecimal digits of either case. The text may have blank
margins, may start with `0x` or `0X`, and may hold ASCII spacing anywhere behind
that, also between the two digits of a byte.
-/

namespace BytecodeListing

namespace Literal

/-- Removes one leading `0x` or `0X`. -/
def dropMark : List Char → List Char
  | '0' :: 'x' :: rest => rest
  | '0' :: 'X' :: rest => rest
  | cs => cs

/-- What is left of a text when margins, the leading mark and spacing are
removed: the digits, if the text is well formed. -/
def digits (text : List Char) : List Char :=
  (dropMark (Text.trim text)).filter fun c => !Text.isSpacing c

/-- Reads bytecode from its text. Positions in faults count the bytes of the
digits. -/
def parse (text : List Char) : Except Hex.Fault (List UInt8) :=
  Hex.read ((digits text).flatMap String.utf8EncodeChar)

end Literal

namespace Hex.Fault

/-- The wording of a fault. A byte is shown as the character with its number. -/
def message : Hex.Fault → String
  | oddLength => "Odd number of digits"
  | badByte byte position =>
      "Invalid character " ++
        String.ofList (Text.quotedChar (Char.ofNat byte.toNat)) ++
        " at position " ++ toString position

end Hex.Fault

end BytecodeListing
