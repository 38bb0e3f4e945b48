import BytecodeListing.Text.Unprintable

/-!
# Quoted text

Characters and strings as they appear inside messages: between quotes, with the
quote itself, the backslash and everything that has no printed form escaped. Only
the kind of quote in use is escaped, so a string shows an apostrophe as it is and a
character shows a double quote as it is.
-/

namespace BytecodeListing

namespace Text

/-- The quote around a single character. -/
def apostrophe : Char := '\x27'

/-- The quote around a string. -/
def doubleQuote : Char := '\x22'

/-- A character between the given quotes. A code point without a printed form is
written in hexadecimal, without leading zeros. -/
def escape (quote c : Char) : List Char :=
  if c = quote ∨ c = '\\' then ['\\', c]
  else if c = '\x00' then ['\\', '0']
  else if c = '\t' then ['\\', 't']
  else if c = '\n' then ['\\', 'n']
  else if c = '\r' then ['\\', 'r']
  else if isUnprintable c then
    ['\\', 'u', '\x7b'] ++ Nat.toDigits 16 c.toNat ++ ['\x7d']
  else [c]

/-- A quoted character. -/
def quotedChar (c : Char) : List Char :=
  [apostrophe] ++ escape apostrophe c ++ [apostrophe]

/-- A quoted string. -/
def quoted (cs : List Char) : List Char :=
  [doubleQuote] ++ cs.flatMap (escape doubleQuote) ++ [doubleQuote]

@[simp] theorem escape_self (quote : Char) :
    escape quote quote = ['\\', quote] := by
  simp [escape]

@[simp] theorem escape_backslash (quote : Char) :
    escape quote '\\' = ['\\', '\\'] := by
  simp [escape]

end Text

end BytecodeListing
