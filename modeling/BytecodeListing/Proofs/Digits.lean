import BytecodeListing.Text.Hex

/-!
# Reading hexadecimal text back

What `ofBytes` and `ofOffset` write is read back by `bytes?` and `offset?`. Both
readers work on the encoded characters, as the reader of bytecode does, and `bytes?`
is that reader with the faults forgotten. An offset may have any number of digits
from four on.

`Written cs` says that all of some characters are digits as they are written. It is
what the two kinds of text have in common, and it keeps the characters that separate
the parts of a line out of them.
-/

namespace BytecodeListing

namespace Hex

/-- The encoded form of some characters. -/
def encoded (cs : List Char) : List UInt8 :=
  cs.flatMap String.utf8EncodeChar

/-- The bytes written by some digits, two for every byte. -/
def bytes? (cs : List Char) : Option (List UInt8) :=
  (read (encoded cs)).toOption

/-- The number written by some encoded digits, the high ones first. -/
def number (digits : List UInt8) : Nat :=
  digits.foldl (fun n d => 16 * n + value d) 0

/-- The offset written by some digits, which are at least four. -/
def offset? (cs : List Char) : Option Nat :=
  if 4 ≤ cs.length ∧ (encoded cs).all isDigit = true then
    some (number (encoded cs))
  else
    none

/-- All of the characters are digits as they are written. -/
def Written (cs : List Char) : Prop :=
  ∀ c ∈ cs, ∃ d < 16, c = Nat.digitChar d

@[simp] theorem encoded_nil : encoded [] = [] := rfl

@[simp] theorem encoded_append (a b : List Char) :
    encoded (a ++ b) = encoded a ++ encoded b := List.flatMap_append

theorem encoded_cons (c : Char) (cs : List Char) :
    encoded (c :: cs) = String.utf8EncodeChar c ++ encoded cs := rfl

/-- A written digit is encoded as one byte, and this byte has its value. -/
theorem exists_utf8EncodeChar_digitChar {d : Nat} (h : d < 16) :
    ∃ x, String.utf8EncodeChar (Nat.digitChar d) = [x] ∧ value? x = some d := by
  have hall : ∀ d < 16,
      (String.utf8EncodeChar (Nat.digitChar d)).map value? = [some d] := by
    decide
  exact List.map_eq_singleton_iff.1 (hall d h)

theorem value_of_value? {x : UInt8} {d : Nat} (h : value? x = some d) :
    value x = d := by
  rw [value, h, Option.getD_some]

theorem isDigit_of_value? {x : UInt8} {d : Nat} (h : value? x = some d) :
    isDigit x = true := by
  rw [isDigit, h, Option.isSome_some]

namespace Written

theorem append {a b : List Char} (ha : Written a) (hb : Written b) :
    Written (a ++ b) := by
  intro c hc
  rcases List.mem_append.1 hc with hc | hc
  · exact ha c hc
  · exact hb c hc

theorem all_isDigit {cs : List Char} (h : Written cs) :
    (encoded cs).all isDigit = true := by
  rw [List.all_eq_true]
  intro x hx
  obtain ⟨c, hc, hxc⟩ := List.mem_flatMap.1 hx
  obtain ⟨d, hd, rfl⟩ := h c hc
  obtain ⟨y, hy, hvalue⟩ := exists_utf8EncodeChar_digitChar hd
  rw [hy, List.mem_singleton] at hxc
  rw [hxc]
  exact isDigit_of_value? hvalue

theorem length_encoded {cs : List Char} (h : Written cs) :
    (encoded cs).length = cs.length := by
  induction cs with
  | nil => rfl
  | cons c cs ih =>
      obtain ⟨d, hd, rfl⟩ := h c List.mem_cons_self
      obtain ⟨x, hx, -⟩ := exists_utf8EncodeChar_digitChar hd
      have ih := ih fun c hc => h c (List.mem_cons_of_mem _ hc)
      rw [encoded_cons, hx, List.singleton_append, List.length_cons, ih,
        List.length_cons]

/-- A character that no digit is written as does not occur. -/
theorem not_mem {cs : List Char} (h : Written cs) {c : Char}
    (hc : ∀ d < 16, c ≠ Nat.digitChar d) : c ∉ cs := by
  intro hmem
  obtain ⟨d, hd, heq⟩ := h c hmem
  exact hc d hd heq

theorem colon_not_mem {cs : List Char} (h : Written cs) : ':' ∉ cs :=
  h.not_mem (by decide)

theorem space_not_mem {cs : List Char} (h : Written cs) : ' ' ∉ cs :=
  h.not_mem (by decide)

theorem hash_not_mem {cs : List Char} (h : Written cs) : '#' ∉ cs :=
  h.not_mem (by decide)

end Written

theorem written_ofByte (b : UInt8) : Written (ofByte b) := by
  have hb := b.toNat_lt
  intro c hc
  rcases List.mem_cons.1 hc with rfl | hc
  · exact ⟨_, by omega, rfl⟩
  · rw [List.mem_singleton] at hc
    exact ⟨_, Nat.mod_lt _ (by omega), hc⟩

theorem written_ofBytes (bytes : List UInt8) : Written (ofBytes bytes) := by
  intro c hc
  obtain ⟨b, -, hcb⟩ := List.mem_flatMap.1 hc
  exact written_ofByte b c hcb

theorem written_toDigits (n : Nat) : Written (Nat.toDigits 16 n) := by
  induction n using Nat.strongRecOn with
  | ind n ih =>
      rcases Nat.lt_or_ge n 16 with hlt | hge
      · rw [Nat.toDigits_of_lt_base hlt]
        intro c hc
        exact ⟨n, hlt, List.mem_singleton.1 hc⟩
      · rw [Nat.toDigits_of_base_le (by omega) hge]
        refine Written.append (ih (n / 16) (by omega)) ?_
        intro c hc
        exact ⟨n % 16, Nat.mod_lt _ (by omega), List.mem_singleton.1 hc⟩

theorem written_ofOffset (n : Nat) : Written (ofOffset n) := by
  refine Written.append ?_ (written_toDigits n)
  intro c hc
  exact ⟨0, by omega, List.eq_of_mem_replicate hc⟩

theorem readPairs_encoded_ofBytes (bytes : List UInt8) :
    (readPairs #[] (encoded (ofBytes bytes))).toList = bytes := by
  induction bytes with
  | nil => rfl
  | cons b bytes ih =>
      have hb := b.toNat_lt
      obtain ⟨x, hx, hxvalue⟩ := exists_utf8EncodeChar_digitChar
        (d := b.toNat / 16) (by omega)
      obtain ⟨y, hy, hyvalue⟩ := exists_utf8EncodeChar_digitChar
        (d := b.toNat % 16) (by omega)
      have hencoded : encoded (ofByte b) = [x, y] := by
        rw [ofByte, encoded_cons, encoded_cons, hx, hy]
        rfl
      have hbyte : UInt8.ofNat (16 * value x + value y) = b := by
        rw [value_of_value? hxvalue, value_of_value? hyvalue, Nat.div_add_mod,
          UInt8.ofNat_toNat]
      rw [ofBytes_cons, encoded_append, hencoded, List.cons_append,
        List.singleton_append, readPairs_cons_cons, toList_readPairs, ih, hbyte]
      rfl

theorem bytes?_ofBytes (bytes : List UInt8) :
    bytes? (ofBytes bytes) = some bytes := by
  have hlength : (encoded (ofBytes bytes)).length = 2 * bytes.length := by
    rw [(written_ofBytes bytes).length_encoded, length_ofBytes]
  have hdigits : (encoded (ofBytes bytes)).findIdx? (fun b => !isDigit b) =
      none := by
    rw [List.findIdx?_eq_none_iff]
    intro x hx
    rw [List.all_eq_true.1 (written_ofBytes bytes).all_isDigit x hx]
    rfl
  rw [bytes?, read, if_neg (by omega), hdigits, readPairs_encoded_ofBytes]
  rfl

theorem number_append_singleton (digits : List UInt8) (d : UInt8) :
    number (digits ++ [d]) = 16 * number digits + value d := by
  rw [number, number, List.foldl_append]
  rfl

theorem number_encoded_toDigits (n : Nat) :
    number (encoded (Nat.toDigits 16 n)) = n := by
  induction n using Nat.strongRecOn with
  | ind n ih =>
      rcases Nat.lt_or_ge n 16 with hlt | hge
      · obtain ⟨x, hx, hvalue⟩ := exists_utf8EncodeChar_digitChar hlt
        rw [Nat.toDigits_of_lt_base hlt, encoded_cons, hx, encoded_nil,
          List.append_nil, ← List.nil_append [x], number_append_singleton,
          value_of_value? hvalue]
        exact Nat.zero_add n
      · obtain ⟨x, hx, hvalue⟩ := exists_utf8EncodeChar_digitChar
          (d := n % 16) (Nat.mod_lt _ (by omega))
        rw [Nat.toDigits_of_base_le (by omega) hge, encoded_append,
          encoded_cons, hx, encoded_nil, List.append_nil,
          number_append_singleton, ih (n / 16) (by omega),
          value_of_value? hvalue, Nat.div_add_mod]

theorem number_encoded_replicate (k : Nat) (cs : List Char) :
    number (encoded (List.replicate k '0' ++ cs)) = number (encoded cs) := by
  induction k with
  | zero => rfl
  | succ k ih =>
      rw [List.replicate_succ, List.cons_append, encoded_cons, ← ih]
      rfl

theorem offset?_ofOffset (n : Nat) : offset? (ofOffset n) = some n := by
  have hlength : 4 ≤ (ofOffset n).length := by
    rw [ofOffset, List.length_leftpad]
    exact Nat.le_max_left _ _
  rw [offset?, if_pos ⟨hlength, (written_ofOffset n).all_isDigit⟩, ofOffset,
    List.leftpad, number_encoded_replicate, number_encoded_toDigits]

end Hex

end BytecodeListing
