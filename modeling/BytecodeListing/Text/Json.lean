import BytecodeListing.Text.Quoted

/-!
# Strings in JSON

A string between double quotes in which the quote, the backslash and the control
characters are escaped, the common ones by a letter and the others by four
hexadecimal digits.
-/

namespace BytecodeListing

namespace Text

/-- A character of a JSON string. -/
def jsonEscape (c : Char) : List Char :=
  if c = doubleQuote ∨ c = '\\' then ['\\', c]
  else if c = '\x08' then ['\\', 'b']
  else if c = '\x0c' then ['\\', 'f']
  else if c = '\n' then ['\\', 'n']
  else if c = '\r' then ['\\', 'r']
  else if c = '\t' then ['\\', 't']
  else if c.toNat < 0x20 then
    ['\\', 'u'] ++ (Nat.toDigits 16 c.toNat).leftpad 4 '0'
  else [c]

/-- A JSON string. -/
def jsonString (cs : List Char) : List Char :=
  [doubleQuote] ++ cs.flatMap jsonEscape ++ [doubleQuote]

end Text

end BytecodeListing
