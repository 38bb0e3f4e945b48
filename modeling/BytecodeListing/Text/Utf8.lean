/-!
# Bytes shown as text

Bytes are shown as the UTF-8 text they encode. Where they encode none, every longest
piece that could have been the start of a character is shown as one replacement
character, and so is every byte that cannot start one. The program writes bytes to its log
and shows none of them again; this is for reading the log when the program is done.
-/

namespace BytecodeListing

namespace Text

/-- The ranges of the bytes that have to follow the first byte of an encoded
character, or `none` for a byte that cannot be first. -/
def followers? (b : UInt8) : Option (List (UInt8 × UInt8)) :=
  if b < 0x80 then some []
  else if 0xc2 ≤ b ∧ b ≤ 0xdf then some [(0x80, 0xbf)]
  else if b = 0xe0 then some [(0xa0, 0xbf), (0x80, 0xbf)]
  else if b = 0xed then some [(0x80, 0x9f), (0x80, 0xbf)]
  else if 0xe1 ≤ b ∧ b ≤ 0xef then some [(0x80, 0xbf), (0x80, 0xbf)]
  else if b = 0xf0 then some [(0x90, 0xbf), (0x80, 0xbf), (0x80, 0xbf)]
  else if 0xf1 ≤ b ∧ b ≤ 0xf3 then some [(0x80, 0xbf), (0x80, 0xbf), (0x80, 0xbf)]
  else if b = 0xf4 then some [(0x80, 0x8f), (0x80, 0xbf), (0x80, 0xbf)]
  else none

/-- The longest start of `bytes` that lies in the given ranges, range by range. -/
def within : List (UInt8 × UInt8) → List UInt8 → List UInt8
  | (low, high) :: ranges, b :: bytes =>
      if low ≤ b ∧ b ≤ high then b :: within ranges bytes else []
  | _, _ => []

/-- The code point of an encoded character. -/
def codePoint (first : UInt8) (more : List UInt8) : Nat :=
  let lead := match more.length with
    | 0 => first.toNat
    | 1 => first.toNat % 0x20
    | 2 => first.toNat % 0x10
    | _ => first.toNat % 0x08
  more.foldl (fun n b => n * 0x40 + b.toNat % 0x40) lead

/-- The character shown in place of bytes that encode none. -/
def replacement : Char := '\ufffd'

/-- Shows bytes behind the characters already shown. -/
def showFrom (shown : Array Char) : List UInt8 → Array Char
  | [] => shown
  | first :: rest =>
      match followers? first with
      | none => showFrom (shown.push replacement) rest
      | some ranges =>
          let more := within ranges rest
          let c :=
            if more.length = ranges.length then
              Char.ofNat (codePoint first more)
            else
              replacement
          showFrom (shown.push c) (rest.drop more.length)
termination_by bytes => bytes.length

/-- Bytes shown as text. -/
def ofBytes (bytes : List UInt8) : String :=
  String.ofList (showFrom #[] bytes).toList

end Text

end BytecodeListing
