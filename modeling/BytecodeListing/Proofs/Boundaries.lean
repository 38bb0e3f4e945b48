import BytecodeListing.Proofs.Offsets

/-!
# Instruction boundaries

A boundary is an offset at which the linear sweep of an EVM code finds an
instruction: the first byte, and from one boundary to the next one byte and the
width of the operand further. It is said on the code alone, by the bytes and
`Opcode.width`, and speaks of no table, cursor or mode. `boundary_iff` ties it to
the offsets of the steps.

Every other offset in the code lies in the operand of exactly one instruction, so a
code is split into boundaries and operands (`boundary_or_inOperand`,
`Boundary.not_inOperand`). A JUMPDEST byte is a jump target only at a boundary.
-/

namespace BytecodeListing

/-- The offsets at which the linear sweep of a code finds an instruction. -/
inductive Boundary (code : List UInt8) : Nat → Prop
  | start (h : 0 < code.length) : Boundary code 0
  | next {i : Nat} {b : UInt8} (hi : Boundary code i) (hb : code[i]? = some b)
      (h : i + 1 + Opcode.width b < code.length) :
      Boundary code (i + 1 + Opcode.width b)

/-- The offset lies in the operand of an instruction of the sweep. Only a push has
an operand. -/
def InOperand (code : List UInt8) (o : Nat) : Prop :=
  ∃ i b, Boundary code i ∧ code[i]? = some b ∧ i < o ∧ o ≤ i + Opcode.width b

/-- The offset is a valid destination of a jump: a JUMPDEST that is an instruction
of the sweep. -/
def JumpTarget (code : List UInt8) (o : Nat) : Prop :=
  Boundary code o ∧ code[o]? = some Opcode.jumpdest

section Evm

variable {code : List UInt8}

theorem getElem?_offsetAt_evm {i : Nat}
    (h : Table.evm.offsetAt code i < code.length) :
    code[Table.evm.offsetAt code i]? =
      some (Table.evm.entryAt code i).opcode := by
  rw [List.getElem?_eq_getElem h]
  simp [Table.entryAt, Table.evm, h]

theorem offsetAt_succ_evm (i : Nat) :
    Table.evm.offsetAt code (i + 1) =
      min (Table.evm.offsetAt code i + 1 +
        Opcode.width (Table.evm.entryAt code i).opcode) code.length := rfl

theorem boundary_offsetAt {i : Nat}
    (h : Table.evm.offsetAt code i < code.length) :
    Boundary code (Table.evm.offsetAt code i) := by
  induction i with
  | zero => exact .start h
  | succ i ih =>
      have hlt := Nat.lt_of_le_of_lt (Table.evm.offsetAt_le_succ code i) h
      rw [offsetAt_succ_evm] at h ⊢
      rw [Nat.min_eq_left (by omega)]
      exact .next (ih hlt) (getElem?_offsetAt_evm hlt) (by omega)

theorem boundary_iff {o : Nat} :
    Boundary code o ↔ ∃ i, Table.evm.offsetAt code i = o ∧ o < code.length := by
  constructor
  · intro h
    induction h with
    | start h => exact ⟨0, rfl, h⟩
    | next _ hb h ih =>
        obtain ⟨i, rfl, hi⟩ := ih
        rw [getElem?_offsetAt_evm hi, Option.some.injEq] at hb
        refine ⟨i + 1, ?_, h⟩
        rw [offsetAt_succ_evm, hb]
        omega
  · rintro ⟨i, rfl, h⟩
    exact boundary_offsetAt h

theorem boundary_of_mem_sweep {s : Step} (h : s ∈ Table.evm.sweep code) :
    Boundary code s.offset ∧ code[s.offset]? = some s.insn.opcode := by
  rw [Table.sweep_eq_map_stepAt] at h
  obtain ⟨i, hi, rfl⟩ := List.mem_map.1 h
  have hlt := (Table.evm.mem_indices code).1 hi
  exact ⟨boundary_offsetAt hlt, getElem?_offsetAt_evm hlt⟩

/-- Every offset in the code is a boundary or lies in an operand. -/
theorem boundary_or_inOperand {o : Nat} (h : o < code.length) :
    Boundary code o ∨ InOperand code o := by
  obtain ⟨i, hle, hlt⟩ := Table.evm.exists_offsetAt_le_lt code h
  have hi := Nat.lt_of_le_of_lt hle h
  rcases Nat.eq_or_lt_of_le hle with heq | hlt'
  · rw [← heq]
    exact Or.inl (boundary_offsetAt hi)
  · rw [offsetAt_succ_evm] at hlt
    exact Or.inr ⟨_, _, boundary_offsetAt hi, getElem?_offsetAt_evm hi, hlt',
      by omega⟩

theorem Boundary.not_inOperand {o : Nat} (h : Boundary code o) :
    ¬ InOperand code o := by
  rintro ⟨o', b, ho', hb, hlt, hle⟩
  obtain ⟨i, rfl, hi⟩ := boundary_iff.1 h
  obtain ⟨j, rfl, hj⟩ := boundary_iff.1 ho'
  rw [getElem?_offsetAt_evm hj, Option.some.injEq] at hb
  rcases Nat.lt_or_ge j i with hji | hij
  · have hmono := Table.evm.offsetAt_mono code (Nat.succ_le_of_lt hji)
    rw [Nat.succ_eq_add_one, offsetAt_succ_evm, hb] at hmono
    omega
  · have hmono := Table.evm.offsetAt_mono code hij
    omega

theorem boundary_iff_not_inOperand {o : Nat} (h : o < code.length) :
    Boundary code o ↔ ¬ InOperand code o := by
  constructor
  · exact Boundary.not_inOperand
  · exact (boundary_or_inOperand h).resolve_right

end Evm

end BytecodeListing
