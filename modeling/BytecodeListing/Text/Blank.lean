/-!
# Blank characters

Two classes of white space are told apart. The margins of a text are blank in the
sense of the Unicode property `White_Space`. Between the digits of a text only the
ASCII characters for spacing may stand, and the vertical tab is not one of them.
-/

namespace BytecodeListing

namespace Text

/-- The characters with the Unicode property `White_Space`. -/
def isBlank (c : Char) : Bool :=
  (0x09 ≤ c.toNat && c.toNat ≤ 0x0d) || c.toNat == 0x20 || c.toNat == 0x85 ||
    c.toNat == 0xa0 || c.toNat == 0x1680 ||
    (0x2000 ≤ c.toNat && c.toNat ≤ 0x200a) || c.toNat == 0x2028 ||
    c.toNat == 0x2029 || c.toNat == 0x202f || c.toNat == 0x205f ||
    c.toNat == 0x3000

/-- The ASCII characters for spacing: space, tab, newline, form feed and
carriage return. -/
def isSpacing (c : Char) : Bool :=
  c.toNat == 0x20 || c.toNat == 0x09 || c.toNat == 0x0a || c.toNat == 0x0c ||
    c.toNat == 0x0d

/-- The text between its blank margins. -/
def trim (cs : List Char) : List Char :=
  ((cs.dropWhile isBlank).reverse.dropWhile isBlank).reverse

/-- Spacing is blank. -/
theorem isBlank_of_isSpacing {c : Char} (h : isSpacing c = true) :
    isBlank c = true := by
  simp only [isSpacing, isBlank, Bool.or_eq_true, Bool.and_eq_true,
    beq_iff_eq, decide_eq_true_eq] at h ⊢
  omega

@[simp] theorem trim_nil : trim [] = [] := rfl

end Text

end BytecodeListing
