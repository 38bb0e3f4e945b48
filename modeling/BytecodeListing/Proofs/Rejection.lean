import Mathlib.Algebra.Ring.Parity
import Mathlib.Order.Lattice.Nat
import Mathlib.Order.Bounds.Defs
import BytecodeListing.Proofs.Grammar

/-!
# What is wrong with a text

A text is rejected for its digits, the characters that are left of it without margins, mark
and spacing. Either their bytes are odd in number, or the first byte that is no digit is
named (`read_eq_oddLength_iff`, `read_eq_badByte_iff`).

It makes no difference where spacing stands in a text, as long as it does not take the mark
apart. Spacing that is put in leaves the text without its spacing as it was, and the digits
depend only on that and on whether there is a mark (`digits_eq`). A mark is neither made nor
taken away, because trimming starts at the same character (`Fits.marked_iff`).
-/

namespace BytecodeListing

namespace Hex

/-- The ASCII digits of either case. -/
def asciiDigits : List UInt8 :=
  encoded "0123456789abcdefABCDEF".toList

/-- The positions of the bytes that are no digits. -/
def badPositions (digits : List UInt8) : Set Nat :=
  {i | ∃ b, digits[i]? = some b ∧ b ∉ asciiDigits}

theorem isDigit_iff_mem {b : UInt8} : isDigit b = true ↔ b ∈ asciiDigits := by
  have hall : ∀ n < 256, isDigit (UInt8.ofNat n) = true ↔ UInt8.ofNat n ∈ asciiDigits := by
    decide +kernel
  simpa using hall b.toNat b.toNat_lt

section Read

variable {digits : List UInt8}

theorem read_eq_oddLength_iff : read digits = .error .oddLength ↔ Odd digits.length := by
  rw [read, Nat.odd_iff]
  split
  · next h => simp [h]
  · next h => split <;> simp [h]

theorem mem_badPositions_iff {i : Nat} (hi : i < digits.length) :
    i ∈ badPositions digits ↔ isDigit digits[i] = false := by
  simp [badPositions, List.getElem?_eq_getElem hi, ← isDigit_iff_mem]

/-- The first byte that is no digit, wherever it is looked for. -/
theorem findIdx?_eq_some_iff_isLeast {position : Nat} :
    (digits.findIdx? fun b => !isDigit b) = some position ↔
      IsLeast (badPositions digits) position := by
  rw [List.findIdx?_eq_some_iff_getElem]
  constructor
  · rintro ⟨hlt, hbad, hbefore⟩
    refine ⟨(mem_badPositions_iff hlt).2 (by simpa using hbad), fun i hi => ?_⟩
    by_contra hlt'
    have hdigit := hbefore i (Nat.not_le.1 hlt')
    rw [mem_badPositions_iff (Nat.lt_trans (Nat.not_le.1 hlt') hlt)] at hi
    simp [hi] at hdigit
  · rintro ⟨hmem, hleast⟩
    obtain ⟨b, hb, -⟩ := id hmem
    obtain ⟨hlt, -⟩ := List.getElem?_eq_some_iff.1 hb
    refine ⟨hlt, by simpa using (mem_badPositions_iff hlt).1 hmem, fun j hj => ?_⟩
    have hnot : j ∉ badPositions digits := fun h => Nat.not_le.2 hj (hleast h)
    rw [mem_badPositions_iff (Nat.lt_trans hj hlt)] at hnot
    simpa using hnot

/-- The byte that is named is the first one that is no digit. -/
theorem read_eq_badByte_iff {byte : UInt8} {position : Nat} :
    read digits = .error (.badByte byte position) ↔
      ¬ Odd digits.length ∧ digits[position]? = some byte ∧
        IsLeast (badPositions digits) position := by
  rw [read, Nat.odd_iff, ← findIdx?_eq_some_iff_isLeast]
  split
  · next h => simp [h]
  · next h =>
      split
      · next i hfind =>
          obtain ⟨hlt, -, -⟩ := List.findIdx?_eq_some_iff_getElem.1 hfind
          simp only [hfind, Except.error.injEq, Fault.badByte.injEq, Option.some.injEq, h,
            not_false_eq_true, true_and]
          constructor
          · rintro ⟨rfl, rfl⟩
            simp [hlt]
          · rintro ⟨hbyte, rfl⟩
            simp [hbyte]
      · next hfind => simp [hfind]

/-- Digits are not read if their number is odd or one of them is bad. -/
theorem exists_read_eq_error_iff :
    (∃ fault, read digits = .error fault) ↔
      Odd digits.length ∨ (badPositions digits).Nonempty := by
  constructor
  · rintro ⟨fault, h⟩
    cases fault with
    | oddLength => exact .inl (read_eq_oddLength_iff.1 h)
    | badByte byte position => exact .inr ⟨position, (read_eq_badByte_iff.1 h).2.2.1⟩
  · intro h
    by_cases hodd : Odd digits.length
    · exact ⟨_, read_eq_oddLength_iff.2 hodd⟩
    · have hleast : IsLeast (badPositions digits) (sInf (badPositions digits)) :=
        ⟨Nat.sInf_mem (h.resolve_left hodd), fun _ hi => Nat.sInf_le hi⟩
      obtain ⟨byte, hbyte, -⟩ := hleast.1
      exact ⟨_, read_eq_badByte_iff.2 ⟨hodd, hbyte, hleast⟩⟩

end Read

end Hex

namespace Text

theorem isSpacing_iff {c : Char} :
    isSpacing c = true ↔ c ∈ [' ', '\t', '\n', '\x0c', '\r'] := by
  have hchar (d : Char) : c.toNat = d.toNat ↔ c = d := Char.toNat_inj
  simp only [isSpacing, Bool.or_eq_true, beq_iff_eq, List.mem_cons, List.not_mem_nil, or_false,
    ← hchar, or_assoc]
  rfl

/-- Leaving out spacing and trimming go together, because spacing is blank. -/
theorem filter_dropWhile (cs : List Char) :
    (cs.dropWhile isBlank).filter (fun c => !isSpacing c) =
      (cs.filter fun c => !isSpacing c).dropWhile isBlank := by
  induction cs with
  | nil => rfl
  | cons c cs ih =>
      cases hblank : isBlank c with
      | true => cases hspacing : isSpacing c <;> simp [hblank, hspacing, ih]
      | false =>
          have hspacing : isSpacing c = false := by
            rw [← Bool.not_eq_true]
            exact fun h => by simp [isBlank_of_isSpacing h] at hblank
          simp [hblank, hspacing]

theorem filter_trim (cs : List Char) :
    (trim cs).filter (fun c => !isSpacing c) = trim (cs.filter fun c => !isSpacing c) := by
  rw [trim, trim, List.filter_reverse, filter_dropWhile, List.filter_reverse, filter_dropWhile]

/-- Trimming starts behind the blank characters in front. -/
theorem trim_dropWhile (cs : List Char) : trim (cs.dropWhile isBlank) = trim cs := by
  have h := @trim_margins (cs.takeWhile isBlank) [] (cs.dropWhile isBlank)
    (fun c hc => List.mem_takeWhile_imp hc) (by simp)
  rwa [List.append_nil, List.takeWhile_append_dropWhile, eq_comm] at h

/-- What is left of a text stands at the front of what is behind the margin. -/
theorem trim_isPrefix (cs : List Char) : trim cs <+: cs.dropWhile isBlank := by
  rw [trim, ← List.reverse_suffix, List.reverse_reverse]
  exact List.dropWhile_suffix _

end Text

namespace Literal

/-- A text with something put into it: `gaps i` in front of the character with the number `i`,
and behind the last character what is given for the number of characters. -/
def spaced (gaps : Nat → List Char) : List Char → List Char
  | [] => gaps 0
  | c :: cs => gaps 0 ++ c :: spaced (fun i => gaps (i + 1)) cs

/-- Whether a text starts with a mark. -/
def Marked (cs : List Char) : Prop :=
  ['0', 'x'] <+: cs ∨ ['0', 'X'] <+: cs

/-- What may be put into a text: spacing, but nothing between the two characters of the mark
that is behind the margin, if there is one. -/
structure Fits (gaps : Nat → List Char) (text : List Char) : Prop where
  spacing : ∀ i, ∀ c ∈ gaps i, c ∈ [' ', '\t', '\n', '\x0c', '\r']
  mark : Marked (Text.trim text) → gaps ((text.takeWhile Text.isBlank).length + 1) = []

instance (cs : List Char) : Decidable (Marked cs) :=
  inferInstanceAs (Decidable (_ ∨ _))

theorem dropMark_eq_ite (cs : List Char) :
    dropMark cs = if Marked cs then cs.drop 2 else cs := by
  fun_cases dropMark cs with
  | case1 rest => simp [Marked]
  | case2 rest => simp [Marked]
  | case3 _ hx hX =>
      rw [if_neg]
      rintro (⟨rest, rfl⟩ | ⟨rest, rfl⟩)
      · exact hx rest rfl
      · exact hX rest rfl

/-- A mark is never trimmed, and nothing that is trimmed stands behind it. -/
theorem marked_trim_iff {cs : List Char} :
    Marked (Text.trim cs) ↔ Marked (cs.dropWhile Text.isBlank) := by
  constructor
  · rintro (h | h)
    · exact .inl (h.trans (Text.trim_isPrefix cs))
    · exact .inr (h.trans (Text.trim_isPrefix cs))
  · rw [← Text.trim_dropWhile cs]
    rintro (⟨body, h⟩ | ⟨body, h⟩)
    · obtain ⟨body', -, htrim, -⟩ := exists_trim_mark (x := 'x') (by decide) body
      exact .inl ⟨body', by rw [← h]; exact htrim.symm⟩
    · obtain ⟨body', -, htrim, -⟩ := exists_trim_mark (x := 'X') (by decide) body
      exact .inr ⟨body', by rw [← h]; exact htrim.symm⟩

/-- The digits of a text as a function of what is left of it without its spacing, and of
whether there is a mark. -/
theorem digits_eq (text : List Char) :
    digits text =
      (Text.trim (text.filter fun c => !Text.isSpacing c)).drop
        (if Marked (Text.trim text) then 2 else 0) := by
  rw [digits, dropMark_eq_ite, ← Text.filter_trim]
  split
  · next h =>
      rcases h with ⟨rest, h⟩ | ⟨rest, h⟩
      · rw [← h]
        simp [Text.isSpacing]
      · rw [← h]
        simp [Text.isSpacing]
  · rfl

section Gaps

variable {gaps : Nat → List Char} {text : List Char}

theorem filter_spaced (h : ∀ i, ∀ c ∈ gaps i, Text.isSpacing c = true) (cs : List Char) :
    (spaced gaps cs).filter (fun c => !Text.isSpacing c) =
      cs.filter fun c => !Text.isSpacing c := by
  have hgap : (gaps 0).filter (fun c => !Text.isSpacing c) = [] :=
    List.filter_eq_nil_iff.2 fun c hc => by simp [h 0 c hc]
  induction cs generalizing gaps with
  | nil => exact hgap
  | cons c cs ih =>
      rw [spaced, List.filter_append, hgap, List.nil_append, List.filter_cons, List.filter_cons,
        ih (fun i => h (i + 1)) (List.filter_eq_nil_iff.2 fun c hc => by simp [h 1 c hc])]

theorem dropWhile_spaced (h : ∀ i, ∀ c ∈ gaps i, Text.isSpacing c = true) (cs : List Char) :
    (spaced gaps cs).dropWhile Text.isBlank =
      spaced (fun i => if i = 0 then [] else gaps (i + (cs.takeWhile Text.isBlank).length))
        (cs.dropWhile Text.isBlank) := by
  induction cs generalizing gaps with
  | nil => exact List.dropWhile_eq_nil_iff.2 fun c hc => Text.isBlank_of_isSpacing (h 0 c hc)
  | cons c cs ih =>
      rw [spaced, List.dropWhile_append_of_pos fun c hc => Text.isBlank_of_isSpacing (h 0 c hc)]
      cases hblank : Text.isBlank c with
      | true =>
          rw [List.dropWhile_cons_of_pos hblank, List.dropWhile_cons_of_pos hblank,
            List.takeWhile_cons_of_pos hblank, ih fun i => h (i + 1)]
          simp only [List.length_cons, Nat.add_assoc]
      | false =>
          have hnot : ¬ Text.isBlank c = true := by simp [hblank]
          rw [List.dropWhile_cons_of_neg hnot, List.dropWhile_cons_of_neg hnot,
            List.takeWhile_cons_of_neg hnot]
          simp [spaced]

/-- A character that is no spacing was there before. -/
theorem exists_of_spaced_eq_cons (h : ∀ c ∈ gaps 0, Text.isSpacing c = true) {c : Char}
    (hc : Text.isSpacing c = false) {cs rest : List Char} (hcs : spaced gaps cs = c :: rest) :
    ∃ cs', cs = c :: cs' ∧ spaced (fun i => gaps (i + 1)) cs' = rest := by
  have hempty : gaps 0 = [] := by
    cases hgap : gaps 0 with
    | nil => rfl
    | cons d ds =>
        have hd : d = c := by
          cases cs with
          | nil => rw [spaced, hgap] at hcs; exact (List.cons.inj hcs).1
          | cons c' cs => rw [spaced, hgap] at hcs; exact (List.cons.inj hcs).1
        rw [← hd, h d (hgap ▸ List.mem_cons_self)] at hc
        cases hc
  cases cs with
  | nil => simp [spaced, hempty] at hcs
  | cons c' cs =>
      rw [spaced, hempty, List.nil_append] at hcs
      obtain ⟨rfl, hrest⟩ := List.cons.inj hcs
      exact ⟨cs, rfl, hrest⟩

theorem Marked.of_spaced (h : ∀ i, ∀ c ∈ gaps i, Text.isSpacing c = true)
    (hmark : Marked (spaced gaps text)) : Marked text := by
  have hsplit {x : Char} (hx : Text.isSpacing x = false)
      (hstart : ['0', x] <+: spaced gaps text) : ['0', x] <+: text := by
    obtain ⟨rest, hrest⟩ := hstart
    obtain ⟨cs, rfl, hcs⟩ := exists_of_spaced_eq_cons (h 0) (by decide) hrest.symm
    obtain ⟨cs, rfl, -⟩ := exists_of_spaced_eq_cons (h 1) hx hcs
    exact ⟨cs, rfl⟩
  exact hmark.imp (hsplit (by decide)) (hsplit (by decide))

theorem Marked.spaced (hfront : gaps 0 = []) (hmiddle : gaps 1 = []) (hmark : Marked text) :
    Marked (spaced gaps text) := by
  have hkept (x : Char) (hstart : ['0', x] <+: text) :
      ['0', x] <+: Literal.spaced gaps text := by
    obtain ⟨rest, rfl⟩ := hstart
    exact ⟨Literal.spaced (fun i => gaps (i + 2)) rest, by
      simp [Literal.spaced, hfront, hmiddle]⟩
  exact hmark.imp (hkept 'x') (hkept 'X')

theorem Fits.isSpacing (h : Fits gaps text) : ∀ i, ∀ c ∈ gaps i, Text.isSpacing c = true :=
  fun i c hc => Text.isSpacing_iff.2 (h.spacing i c hc)

/-- Spacing neither makes a mark nor takes one away. -/
theorem Fits.marked_iff (h : Fits gaps text) :
    Marked (Text.trim (Literal.spaced gaps text)) ↔ Marked (Text.trim text) := by
  rw [marked_trim_iff, marked_trim_iff, dropWhile_spaced h.isSpacing]
  constructor
  · refine Marked.of_spaced fun i => ?_
    split
    · simp
    · exact h.isSpacing _
  · intro hmark
    have hmiddle := h.mark (marked_trim_iff.2 hmark)
    rw [Nat.add_comm] at hmiddle
    exact Marked.spaced rfl hmiddle hmark

/-- Spacing makes no difference to the digits. -/
theorem Fits.digits_spaced (h : Fits gaps text) :
    digits (Literal.spaced gaps text) = digits text := by
  simp only [digits_eq, filter_spaced h.isSpacing, h.marked_iff]

end Gaps

end Literal

namespace SourceFault

/-- A bad byte is told from an odd length by the first letter. -/
theorem message_eq_oddLength_iff {fault : Hex.Fault} :
    (malformed fault).message = "invalid hex bytecode: Odd number of digits" ↔
      fault = .oddLength := by
  have hstart : (malformed fault).message = "invalid hex bytecode: " ++ fault.message := rfl
  have hodd : "invalid hex bytecode: Odd number of digits" =
      "invalid hex bytecode: " ++ "Odd number of digits" := by
    decide +kernel
  rw [hstart, hodd, String.append_right_inj]
  cases fault with
  | oddLength => exact iff_of_true rfl rfl
  | badByte byte position =>
      refine iff_of_false (fun h => ?_) (fun h => by cases h)
      have hmessage : (Hex.Fault.badByte byte position).message =
          "Invalid character " ++ String.ofList (Text.quotedChar (Char.ofNat byte.toNat)) ++
            " at position " ++ toString position := rfl
      have hhead := congrArg (fun s => s.toList.head?) h
      simp only [hmessage, String.toList_append, List.append_assoc, List.head?_append] at hhead
      have hI : "Invalid character ".toList.head? = some 'I' := by decide +kernel
      have hO : "Odd number of digits".toList.head? = some 'O' := by decide +kernel
      rw [hI, hO, Option.some_or] at hhead
      exact absurd hhead (by decide)

end SourceFault

namespace Source

/-- The bytes that positions in a text are counted in: those of its digits. -/
def digitBytes (text : String) : List UInt8 :=
  Hex.encoded (Literal.digits text.toList)

theorem parse_eq_read (text : String) :
    parse text = (Hex.read (digitBytes text)).mapError .malformed := rfl

theorem parse_eq_error_iff {text : String} {fault : SourceFault} :
    parse text = .error fault ↔
      ∃ reason, fault = .malformed reason ∧ Hex.read (digitBytes text) = .error reason := by
  rw [parse_eq_read]
  cases Hex.read (digitBytes text) with
  | error reason => simp [Except.mapError, eq_comm]
  | ok code => simp [Except.mapError]

/-- A text is rejected for its digits alone: because their bytes are odd in number, and else
because of the first one that is no digit, which is named with its position. Spacing that
is put into the text makes no difference. -/
theorem rejects_exactly (text : String) :
    ((∃ fault, parse text = .error fault) ↔
      Odd (digitBytes text).length ∨ (Hex.badPositions (digitBytes text)).Nonempty) ∧
    (∀ fault, parse text = .error fault →
      (fault.message = "invalid hex bytecode: Odd number of digits" ↔
        Odd (digitBytes text).length) ∧
      (¬ Odd (digitBytes text).length →
        ∃ byte position, fault = .malformed (.badByte byte position) ∧
          (digitBytes text)[position]? = some byte ∧
          IsLeast (Hex.badPositions (digitBytes text)) position)) ∧
    ∀ gaps, Literal.Fits gaps text.toList →
      parse (String.ofList (Literal.spaced gaps text.toList)) = parse text := by
  refine ⟨?_, fun fault h => ?_, fun gaps hfits => ?_⟩
  · rw [← Hex.exists_read_eq_error_iff]
    simp only [parse_eq_error_iff]
    constructor
    · rintro ⟨fault, reason, -, h⟩
      exact ⟨reason, h⟩
    · rintro ⟨reason, h⟩
      exact ⟨_, reason, rfl, h⟩
  · obtain ⟨reason, rfl, hread⟩ := parse_eq_error_iff.1 h
    rw [SourceFault.message_eq_oddLength_iff, ← Hex.read_eq_oddLength_iff, hread]
    refine ⟨by simp, fun hne => ?_⟩
    cases reason with
    | oddLength => exact absurd rfl hne
    | badByte byte position =>
        exact ⟨byte, position, rfl, (Hex.read_eq_badByte_iff.1 hread).2⟩
  · rw [parse_eq_read, parse_eq_read, digitBytes, digitBytes, String.toList_ofList,
      hfits.digits_spaced]

/-- Two blank characters of which one is no spacing, a mark, and a digit of two bytes. Spacing
is put in front of every character but the second one of the mark. -/
theorem rejects_exactly_wideDigit :
    parse "\x85 0X5é6" = .error (.malformed (.badByte 0xc3 1)) ∧
    Literal.Fits (fun i => if i = 3 then [] else ['\t', '\r']) "\x85 0X5é6".toList ∧
    (∃ byte position,
      SourceFault.malformed (.badByte 0xc3 1) = .malformed (.badByte byte position) ∧
      (digitBytes "\x85 0X5é6")[position]? = some byte ∧
      IsLeast (Hex.badPositions (digitBytes "\x85 0X5é6")) position) ∧
    parse (String.ofList (Literal.spaced (fun i => if i = 3 then [] else ['\t', '\r'])
      "\x85 0X5é6".toList)) = .error (.malformed (.badByte 0xc3 1)) := by
  have hparse : parse "\x85 0X5é6" = .error (.malformed (.badByte 0xc3 1)) := by
    decide +kernel
  have hfits : Literal.Fits (fun i => if i = 3 then [] else ['\t', '\r'])
      "\x85 0X5é6".toList := by
    refine ⟨fun i c hc => ?_, fun _ => by decide +kernel⟩
    split at hc
    · simp at hc
    · rcases List.mem_pair.1 hc with rfl | rfl <;> simp
  obtain ⟨-, hfault, hspaced⟩ := rejects_exactly "\x85 0X5é6"
  exact ⟨hparse, hfits, (hfault _ hparse).2 (by decide +kernel), (hspaced _ hfits).trans hparse⟩

end Source

end BytecodeListing
