import Mathlib.Data.List.TakeWhile
import BytecodeListing.Bytecode.Source
import BytecodeListing.Proofs.Digits

/-!
# The grammar of bytecode

Which texts stand for which bytes, said without reading them: blank margins around an
optional mark and a body of digits and spacing, where the digits are those of the bytes
(`Denotes`). Reading accepts these texts and no others, and gives these bytes
(`parse_eq_ok_iff_denotes`).

What is trimmed and what is left out as spacing overlap. The margins that the grammar
names need not be those that are trimmed, but both kinds of text have the same digits
(`digits_of_form`).
-/

namespace BytecodeListing

namespace Text

/-- A text is what is trimmed from it around what is left. -/
theorem exists_margins (cs : List Char) :
    ∃ front back, cs = front ++ trim cs ++ back ∧
      (∀ c ∈ front, isBlank c = true) ∧ ∀ c ∈ back, isBlank c = true := by
  refine ⟨cs.takeWhile isBlank, ((cs.dropWhile isBlank).reverse.takeWhile isBlank).reverse,
    ?_, fun c hc => List.mem_takeWhile_imp hc, fun c hc => ?_⟩
  · rw [trim, List.append_assoc, ← List.reverse_append, List.takeWhile_append_dropWhile,
      List.reverse_reverse, List.takeWhile_append_dropWhile]
  · exact List.mem_takeWhile_imp (List.mem_reverse.1 hc)

/-- Blank margins make no difference to what is left of a text. -/
theorem trim_margins {front back : List Char} (cs : List Char)
    (hfront : ∀ c ∈ front, isBlank c = true) (hback : ∀ c ∈ back, isBlank c = true) :
    trim (front ++ cs ++ back) = trim cs := by
  have hreverse : ∀ c ∈ back.reverse, isBlank c = true := fun c hc =>
    hback c (List.mem_reverse.1 hc)
  rw [trim, List.append_assoc, List.dropWhile_append_of_pos hfront, List.dropWhile_append,
    trim]
  split
  · next hempty =>
      rw [List.isEmpty_iff.1 hempty, ← List.append_nil back,
        List.dropWhile_append_of_pos hback]
      rfl
  · rw [List.reverse_append, List.dropWhile_append_of_pos hreverse]

/-- Trimming twice is trimming once. -/
@[simp] theorem trim_trim (cs : List Char) : trim (trim cs) = trim cs := by
  obtain ⟨front, back, hcs, hfront, hback⟩ := exists_margins cs
  rw [← trim_margins (trim cs) hfront hback, ← hcs]

end Text

namespace Hex

/-- The halves of some bytes, the high one first. -/
def halves (bytes : List UInt8) : List Nat :=
  bytes.flatMap fun b => [b.toNat / 16, b.toNat % 16]

@[simp] theorem halves_nil : halves [] = [] := rfl

@[simp] theorem halves_cons (b : UInt8) (bytes : List UInt8) :
    halves (b :: bytes) = b.toNat / 16 :: b.toNat % 16 :: halves bytes := rfl

theorem length_halves (bytes : List UInt8) : (halves bytes).length = 2 * bytes.length := by
  induction bytes with
  | nil => rfl
  | cons b bytes ih => simp [ih, Nat.mul_succ]

theorem value?_lt {b : UInt8} {v : Nat} (h : value? b = some v) : v < 16 := by
  have hb := b.toNat_lt
  simp only [value?, UInt8.le_iff_toNat_le] at h
  grind

theorem isDigit_iff {b : UInt8} : isDigit b = true ↔ ∃ v, value? b = some v :=
  Option.isSome_iff_exists

theorem ofNat_halves (b : UInt8) :
    UInt8.ofNat (16 * (b.toNat / 16) + b.toNat % 16) = b := by
  rw [Nat.div_add_mod, UInt8.ofNat_toNat]

theorem toNat_ofNat_halves {v w : Nat} (hv : v < 16) (hw : w < 16) :
    (UInt8.ofNat (16 * v + w)).toNat / 16 = v ∧
      (UInt8.ofNat (16 * v + w)).toNat % 16 = w := by
  rw [UInt8.toNat_ofNat']
  omega

theorem readPairs_of_values {digits bytes : List UInt8}
    (h : digits.map value? = (halves bytes).map some) :
    (readPairs #[] digits).toList = bytes := by
  induction bytes generalizing digits with
  | nil => rw [List.map_eq_nil_iff.1 h, readPairs_nil]
  | cons b bytes ih =>
      rw [halves_cons, List.map_cons, List.map_cons] at h
      obtain ⟨high, rest, rfl, hhigh, h⟩ := List.map_eq_cons_iff.1 h
      obtain ⟨low, rest, rfl, hlow, h⟩ := List.map_eq_cons_iff.1 h
      rw [readPairs_cons_cons, toList_readPairs, ih h, value_of_value? hhigh,
        value_of_value? hlow, ofNat_halves]
      rfl

theorem values_of_readPairs (digits : List UInt8) (hlength : digits.length % 2 = 0)
    (hdigits : ∀ x ∈ digits, isDigit x = true) :
    digits.map value? = (halves (readPairs #[] digits).toList).map some := by
  match digits with
  | [] => rfl
  | [_] => cases hlength
  | high :: low :: rest =>
      obtain ⟨v, hv⟩ := isDigit_iff.1 (hdigits high (by simp))
      obtain ⟨w, hw⟩ := isDigit_iff.1 (hdigits low (by simp))
      obtain ⟨hhigh, hlow⟩ := toNat_ofNat_halves (value?_lt hv) (value?_lt hw)
      rw [List.length_cons, List.length_cons] at hlength
      have ih := values_of_readPairs rest (by omega) fun x hx => hdigits x (by simp [hx])
      rw [readPairs_cons_cons, toList_readPairs, value_of_value? hv, value_of_value? hw,
        List.map_cons, List.map_cons, hv, hw, ih]
      simp only [Array.toList_push, List.nil_append, List.singleton_append, halves_cons,
        hhigh, hlow, List.map_cons]

/-- The bytes are read whose halves are the values of the digits. -/
theorem read_eq_ok_iff {digits bytes : List UInt8} :
    read digits = .ok bytes ↔ digits.map value? = (halves bytes).map some := by
  constructor
  · intro h
    rw [read] at h
    split at h
    · cases h
    · next hlength =>
        split at h
        · cases h
        · next hdigits =>
            cases h
            rw [List.findIdx?_eq_none_iff] at hdigits
            exact values_of_readPairs digits (by omega) fun x hx => by
              simpa using hdigits x hx
  · intro h
    have hlength : digits.length = 2 * bytes.length := by
      have hlength := congrArg List.length h
      rwa [List.length_map, List.length_map, length_halves] at hlength
    have hdigits : digits.findIdx? (fun b => !isDigit b) = none := by
      rw [List.findIdx?_eq_none_iff]
      intro x hx
      have hmem : value? x ∈ (halves bytes).map some := h ▸ List.mem_map_of_mem hx
      obtain ⟨v, -, hv⟩ := List.mem_map.1 hmem
      rw [isDigit_of_value? hv.symm]
      rfl
    rw [read, if_neg (by omega), hdigits, readPairs_of_values h]

end Hex

namespace Literal

/-- The value of a character that is an ASCII digit of either case. -/
def digitValue? (c : Char) : Option Nat :=
  if '0' ≤ c ∧ c ≤ '9' then some (c.toNat - '0'.toNat)
  else if 'a' ≤ c ∧ c ≤ 'f' then some (c.toNat - 'a'.toNat + 10)
  else if 'A' ≤ c ∧ c ≤ 'F' then some (c.toNat - 'A'.toNat + 10)
  else none

/-- What may stand in front of the digits. -/
def marks : List (List Char) :=
  [[], ['0', 'x'], ['0', 'X']]

/-- The text stands for the bytes: between blank margins there is a mark, or none, and
a body of digits and spacing, and the digits are those of the bytes in order. -/
def Denotes (text : List Char) (bytes : List UInt8) : Prop :=
  ∃ front mark body back, text = front ++ mark ++ body ++ back ∧
    (∀ c ∈ front, Text.isBlank c = true) ∧ mark ∈ marks ∧
    (∀ c ∈ body, Text.isSpacing c = true ∨ (digitValue? c).isSome = true) ∧
    (∀ c ∈ back, Text.isBlank c = true) ∧
    body.filterMap digitValue? = Hex.halves bytes

section Characters

variable {c : Char}

theorem digitValue?_ascii (hc : c.toNat ≤ 127) :
    ∃ x, String.utf8EncodeChar c = [x] ∧ Hex.value? x = digitValue? c := by
  have hall : ∀ n ≤ 127, Hex.value? (UInt8.ofNat n) = digitValue? (Char.ofNat n) := by
    decide +kernel
  refine ⟨UInt8.ofNat c.toNat, ?_, ?_⟩
  · rw [String.utf8EncodeChar]
    exact if_pos hc
  · rw [hall _ hc, Char.ofNat_toNat]

theorem digitValue?_of_not_ascii (hc : 127 < c.toNat) : digitValue? c = none := by
  have hnot : ∀ d : Char, d.toNat ≤ 127 → ¬ c ≤ d := fun d hd hle =>
    Nat.not_lt.2 (Nat.le_trans (UInt32.le_iff_toNat_le.1 hle) hd) hc
  rw [digitValue?, if_neg fun h => hnot '9' (by decide) h.2,
    if_neg fun h => hnot 'f' (by decide) h.2, if_neg fun h => hnot 'F' (by decide) h.2]

theorem not_isDigit_of_not_ascii (hc : 127 < c.toNat) :
    ∃ x ∈ String.utf8EncodeChar c, Hex.isDigit x = false := by
  have hbyte : ∀ n < 256, 128 ≤ n → Hex.isDigit (UInt8.ofNat n) = false := by
    decide +kernel
  have hc' : 127 < c.val.toNat := hc
  simp only [String.utf8EncodeChar]
  split
  · omega
  · split
    · exact ⟨_, List.mem_cons_self, hbyte _ (by omega) (by omega)⟩
    · split
      · exact ⟨_, List.mem_cons_self, hbyte _ (by omega) (by omega)⟩
      · exact ⟨_, List.mem_cons_self, hbyte _ (by omega) (by omega)⟩

/-- A digit is neither blank nor spacing. -/
theorem not_isBlank_of_digitValue? (hc : (digitValue? c).isSome = true) :
    Text.isBlank c = false := by
  have hall : ∀ n ≤ 127, (digitValue? (Char.ofNat n)).isSome = true →
      Text.isBlank (Char.ofNat n) = false := by
    decide +kernel
  by_cases hascii : c.toNat ≤ 127
  · rw [← Char.ofNat_toNat c] at hc ⊢
    exact hall _ hascii hc
  · rw [digitValue?_of_not_ascii (Nat.not_le.1 hascii)] at hc
    cases hc

theorem digitValue?_of_isSpacing (hc : Text.isSpacing c = true) : digitValue? c = none := by
  by_contra hne
  have hblank := not_isBlank_of_digitValue? (Option.ne_none_iff_isSome.1 hne)
  rw [Text.isBlank_of_isSpacing hc] at hblank
  cases hblank

end Characters

section Digits

variable {cs : List Char} {vs : List Nat}

theorem values_encoded (h : cs.map digitValue? = vs.map some) :
    (Hex.encoded cs).map Hex.value? = vs.map some := by
  induction cs generalizing vs with
  | nil => exact h
  | cons c cs ih =>
      obtain ⟨v, vs, rfl, hv, h⟩ := List.map_eq_cons_iff.1 h.symm
      have hascii : c.toNat ≤ 127 := by
        by_contra hne
        rw [digitValue?_of_not_ascii (Nat.not_le.1 hne)] at hv
        cases hv
      obtain ⟨x, hx, hvalue⟩ := digitValue?_ascii hascii
      rw [Hex.encoded_cons, hx, List.singleton_append, List.map_cons, ih h.symm, hvalue,
        ← hv, List.map_cons]

/-- Characters that are encoded by digits alone are digits. -/
theorem exists_values (h : ∀ x ∈ Hex.encoded cs, Hex.isDigit x = true) :
    ∃ vs : List Nat, cs.map digitValue? = vs.map some := by
  induction cs with
  | nil => exact ⟨[], rfl⟩
  | cons c cs ih =>
      rw [Hex.encoded_cons] at h
      have hascii : c.toNat ≤ 127 := by
        by_contra hne
        obtain ⟨x, hx, hnot⟩ := not_isDigit_of_not_ascii (Nat.not_le.1 hne)
        rw [h x (List.mem_append_left _ hx)] at hnot
        cases hnot
      obtain ⟨x, hx, hvalue⟩ := digitValue?_ascii hascii
      obtain ⟨v, hv⟩ := Hex.isDigit_iff.1 (h x (by simp [hx]))
      obtain ⟨vs, hvs⟩ := ih fun y hy => h y (List.mem_append_right _ hy)
      exact ⟨v :: vs, by rw [List.map_cons, List.map_cons, ← hvalue, hv, hvs]⟩

/-- The bytes are read whose halves are the values of the digits of a text. -/
theorem parse_eq_ok_iff {text : List Char} {bytes : List UInt8} :
    parse text = .ok bytes ↔ (digits text).map digitValue? = (Hex.halves bytes).map some := by
  have hparse : parse text = Hex.read (Hex.encoded (digits text)) := rfl
  rw [hparse, Hex.read_eq_ok_iff]
  constructor
  · intro h
    have hdigits : ∀ x ∈ Hex.encoded (digits text), Hex.isDigit x = true := by
      intro x hx
      have hmem : Hex.value? x ∈ (Hex.halves bytes).map some := h ▸ List.mem_map_of_mem hx
      obtain ⟨v, -, hv⟩ := List.mem_map.1 hmem
      exact Hex.isDigit_of_value? hv.symm
    obtain ⟨vs, hvs⟩ := exists_values hdigits
    rw [hvs, ← values_encoded hvs, h]
  · exact values_encoded

theorem map_eq_map_some_iff :
    cs.map digitValue? = vs.map some ↔
      (∀ c ∈ cs, (digitValue? c).isSome = true) ∧ cs.filterMap digitValue? = vs := by
  induction cs generalizing vs with
  | nil => cases vs <;> simp
  | cons c cs ih =>
      cases hvalue : digitValue? c with
      | none => cases vs <;> simp [hvalue]
      | some v =>
          cases vs with
          | nil => simp [hvalue]
          | cons w vs => simp [hvalue, ih, and_left_comm]

/-- Leaving out the spacing of a body leaves the values of its digits. -/
theorem map_filter_eq_iff :
    (cs.filter fun c => !Text.isSpacing c).map digitValue? = vs.map some ↔
      (∀ c ∈ cs, Text.isSpacing c = true ∨ (digitValue? c).isSome = true) ∧
        cs.filterMap digitValue? = vs := by
  have hfilter : (cs.filter fun c => !Text.isSpacing c).filterMap digitValue? =
      cs.filterMap digitValue? := by
    rw [List.filterMap_filter]
    congr
    funext c
    cases hspacing : Text.isSpacing c with
    | true => simp [digitValue?_of_isSpacing hspacing]
    | false => simp
  have hall : (∀ c ∈ cs.filter fun c => !Text.isSpacing c, (digitValue? c).isSome = true) ↔
      ∀ c ∈ cs, Text.isSpacing c = true ∨ (digitValue? c).isSome = true := by
    simp only [List.mem_filter, Bool.not_eq_true', and_imp]
    refine forall₂_congr fun c _ => ?_
    cases Text.isSpacing c <;> simp
  rw [map_eq_map_some_iff, hfilter, hall]

end Digits

section Forms

variable {front mark body back : List Char}

theorem exists_mark (cs : List Char) : ∃ mark ∈ marks, cs = mark ++ dropMark cs := by
  fun_cases dropMark cs with
  | case1 rest => exact ⟨['0', 'x'], by decide, rfl⟩
  | case2 rest => exact ⟨['0', 'X'], by decide, rfl⟩
  | case3 => exact ⟨[], by decide, rfl⟩

theorem dropMark_of_digits
    (hbody : ∀ c ∈ body, Text.isSpacing c = true ∨ (digitValue? c).isSome = true) :
    dropMark body = body := by
  fun_cases dropMark body with
  | case1 rest => exact absurd (hbody 'x' (by simp)) (by decide)
  | case2 rest => exact absurd (hbody 'X' (by simp)) (by decide)
  | case3 => rfl

/-- Blank characters in a body are spacing, and are left out of its digits. -/
theorem filter_eq_nil_of_blank {cs : List Char}
    (hbody : ∀ c ∈ cs, Text.isSpacing c = true ∨ (digitValue? c).isSome = true)
    (hblank : ∀ c ∈ cs, Text.isBlank c = true) :
    (cs.filter fun c => !Text.isSpacing c) = [] := by
  rw [List.filter_eq_nil_iff]
  intro c hc
  rcases hbody c hc with hspacing | hdigit
  · simp [hspacing]
  · have hnot := not_isBlank_of_digitValue? hdigit
    rw [hblank c hc] at hnot
    cases hnot

/-- Only the end of a text that starts with a mark is trimmed. -/
theorem exists_trim_mark {x : Char} (hx : Text.isBlank x = false) (body : List Char) :
    ∃ body' back, Text.trim ('0' :: x :: body) = '0' :: x :: body' ∧ body = body' ++ back ∧
      ∀ c ∈ back, Text.isBlank c = true := by
  obtain ⟨front, back, hcs, hfront, hback⟩ := Text.exists_margins ('0' :: x :: body)
  generalize Text.trim ('0' :: x :: body) = core at hcs
  cases front with
  | cons c front =>
      obtain ⟨rfl, -⟩ := List.cons.inj hcs
      exact absurd (hfront '0' List.mem_cons_self) (by decide)
  | nil =>
      rw [List.nil_append] at hcs
      match core with
      | [] =>
          rw [List.nil_append] at hcs
          exact absurd (hback '0' (hcs ▸ List.mem_cons_self)) (by decide)
      | [c] =>
          rw [List.singleton_append] at hcs
          rw [hback x ((List.cons.inj hcs).2 ▸ List.mem_cons_self)] at hx
          cases hx
      | c :: c' :: body' =>
          rw [List.cons_append, List.cons_append] at hcs
          obtain ⟨rfl, htail⟩ := List.cons.inj hcs
          obtain ⟨rfl, rfl⟩ := List.cons.inj htail
          exact ⟨body', back, rfl, rfl, hback⟩

/-- The digits of a text are those of its body, whatever is trimmed from it. -/
theorem digits_of_form (hfront : ∀ c ∈ front, Text.isBlank c = true) (hmark : mark ∈ marks)
    (hbody : ∀ c ∈ body, Text.isSpacing c = true ∨ (digitValue? c).isSome = true)
    (hback : ∀ c ∈ back, Text.isBlank c = true) :
    digits (front ++ mark ++ body ++ back) = body.filter fun c => !Text.isSpacing c := by
  rw [digits, List.append_assoc front, Text.trim_margins _ hfront hback]
  have hmarked : ∀ x, Text.isBlank x = false → (∀ cs, dropMark ('0' :: x :: cs) = cs) →
      ((dropMark (Text.trim ('0' :: x :: body))).filter fun c => !Text.isSpacing c) =
        body.filter fun c => !Text.isSpacing c := by
    intro x hx hdrop
    obtain ⟨body', back', htrim, rfl, hback'⟩ := exists_trim_mark hx body
    rw [htrim, hdrop, List.filter_append, filter_eq_nil_of_blank
      (fun c hc => hbody c (List.mem_append_right _ hc)) hback', List.append_nil]
  rcases List.mem_cons.1 hmark with rfl | hmark
  · -- What is trimmed from a body without a mark is spacing.
    rw [List.nil_append]
    obtain ⟨front', back', hsplit, hfront', hback'⟩ := Text.exists_margins body
    generalize Text.trim body = core at hsplit
    subst hsplit
    have hcore := dropMark_of_digits fun c hc =>
      hbody c (List.mem_append_left back' (List.mem_append_right front' hc))
    have hleft := filter_eq_nil_of_blank (fun c hc =>
      hbody c (List.mem_append_left back' (List.mem_append_left core hc))) hfront'
    have hright := filter_eq_nil_of_blank (fun c hc =>
      hbody c (List.mem_append_right (front' ++ core) hc)) hback'
    rw [hcore, List.filter_append, List.filter_append, hleft, hright, List.nil_append,
      List.append_nil]
  · rcases List.mem_cons.1 hmark with rfl | hmark
    · exact hmarked 'x' (by decide) fun _ => rfl
    · rw [List.mem_singleton.1 hmark]
      exact hmarked 'X' (by decide) fun _ => rfl

/-- Reading a text gives exactly the bytes that it stands for. -/
theorem parse_eq_ok_iff_denotes {text : List Char} {bytes : List UInt8} :
    parse text = .ok bytes ↔ Denotes text bytes := by
  rw [parse_eq_ok_iff]
  constructor
  · intro h
    obtain ⟨front, back, htext, hfront, hback⟩ := Text.exists_margins text
    obtain ⟨mark, hmark, htrim⟩ := exists_mark (Text.trim text)
    obtain ⟨hbody, hvalues⟩ := map_filter_eq_iff.1 h
    rw [htrim, ← List.append_assoc] at htext
    exact ⟨front, mark, _, back, htext, hfront, hmark, hbody, hback, hvalues⟩
  · rintro ⟨front, mark, body, back, rfl, hfront, hmark, hbody, hback, hvalues⟩
    rw [digits_of_form hfront hmark hbody hback, map_filter_eq_iff]
    exact ⟨hbody, hvalues⟩

end Forms

end Literal

namespace Source

/-- A text is accepted as a bytecode if and only if it is of the form of the grammar, and
it is read as the bytes whose digits it holds. -/
theorem accepts_iff_denotes (text : String) (bytes : List UInt8) :
    parse text = .ok bytes ↔ Literal.Denotes text.toList bytes := by
  rw [← Literal.parse_eq_ok_iff_denotes, parse]
  cases Literal.parse text.toList with
  | error fault => simp [Except.mapError]
  | ok code => simp [Except.mapError]

end Source

end BytecodeListing
