import BytecodeListing.Machine.Table
import BytecodeListing.Proofs.Digits

/-!
# Mnemonics read back

A mnemonic names one byte. `Opcode.byte?` finds it: an assigned byte by its row, an
unassigned one by the digits in its name. What a line needs of a mnemonic besides is
that it is one word, and that the pushes are named by their widths.

The facts about the rows of the table are checked row by row; the ones about all
bytes follow from them.
-/

namespace BytecodeListing

namespace Opcode

/-- The part of an unassigned byte's name in front of its digits. -/
def unknownStem : String := "UNKNOWN_0x"

/-- The byte with a mnemonic. -/
def byte? (name : String) : Option UInt8 :=
  if name.toList.take unknownStem.toList.length = unknownStem.toList then
    match Hex.bytes? (name.toList.drop unknownStem.toList.length) with
    | some [b] => some b
    | _ => none
  else
    (assigned.find? fun row => row.2 == name).map Prod.fst

/-- The mnemonics of the rows are single words that lead back to the row. -/
theorem assigned_readable :
    ∀ row ∈ assigned, byte? row.2 = some row.1 ∧ ' ' ∉ row.2.toList := by
  decide +kernel

theorem mem_assigned_of_name? {b : UInt8} {name : String}
    (h : name? b = some name) : (b, name) ∈ assigned := by
  obtain ⟨before, behind, hrows, -⟩ := List.lookup_eq_some_iff.1 h
  rw [hrows]
  exact List.mem_append_right _ List.mem_cons_self

theorem mnemonic_evm (b : UInt8) :
    (Table.evm b).mnemonic =
      (name? b).getD (String.ofList (unknownStem.toList ++ Hex.ofByte b)) := rfl

theorem mnemonic_of_name? {b : UInt8} {name : String} (h : name? b = some name) :
    (Table.evm b).mnemonic = name := by
  rw [mnemonic_evm, h, Option.getD_some]

theorem mnemonic_of_name?_none {b : UInt8} (h : name? b = none) :
    (Table.evm b).mnemonic = String.ofList (unknownStem.toList ++ Hex.ofByte b) := by
  rw [mnemonic_evm, h, Option.getD_none]

/-- Every mnemonic leads back to its byte. -/
theorem byte?_mnemonic (b : UInt8) :
    byte? (Table.evm b).mnemonic = some b := by
  cases h : name? b with
  | some name =>
      rw [mnemonic_of_name? h]
      exact (assigned_readable (b, name) (mem_assigned_of_name? h)).1
  | none =>
      have hdigits : Hex.bytes? (Hex.ofByte b) = some [b] := by
        have := Hex.bytes?_ofBytes [b]
        rwa [Hex.ofBytes_cons, Hex.ofBytes_nil, List.append_nil] at this
      rw [mnemonic_of_name?_none h, byte?, String.toList_ofList,
        List.take_left, if_pos rfl, List.drop_left, hdigits]

theorem space_not_mem_mnemonic (b : UInt8) :
    ' ' ∉ (Table.evm b).mnemonic.toList := by
  cases h : name? b with
  | some name =>
      rw [mnemonic_of_name? h]
      exact (assigned_readable (b, name) (mem_assigned_of_name? h)).2
  | none =>
      rw [mnemonic_of_name?_none h, String.toList_ofList, List.mem_append,
        not_or]
      exact ⟨by decide, (Hex.written_ofByte b).space_not_mem⟩

theorem mnemonic_ne_data (b : UInt8) :
    (Table.evm b).mnemonic.toList ≠ "DATA".toList := by
  intro h
  have hbyte := byte?_mnemonic b
  rw [String.toList_inj.1 h] at hbyte
  have hnone : byte? "DATA" = none := by decide +kernel
  rw [hnone] at hbyte
  cases hbyte

theorem mnemonic_of_isPush {b : UInt8} (h : isPush b = true) :
    (Table.evm b).mnemonic = "PUSH" ++ toString (width b) := by
  have hall : ∀ n < 256, isPush (UInt8.ofNat n) = true →
      name? (UInt8.ofNat n) =
        some ("PUSH" ++ toString (width (UInt8.ofNat n))) := by
    decide +kernel
  have hb := hall b.toNat b.toNat_lt
  rw [UInt8.ofNat_toNat] at hb
  exact mnemonic_of_name? (hb h)

end Opcode

end BytecodeListing
