import Mathlib.Data.List.Nodup
import BytecodeListing.Proofs.Lossless
import BytecodeListing.Proofs.Reachability

/-!
# Lines of JUMPDESTs

A listing prints a JUMPDEST exactly at the valid destinations of jumps. A JUMPDEST
byte in an operand is printed with its push or absorbed with it, and nothing starts
there. The statements are about printed lines; `Line.read?` takes a line back to its
segment, so that no line has to be compared with another character by character.
-/

namespace BytecodeListing

/-- The printed line of a JUMPDEST at an offset. -/
def jumpdestLine (o : Nat) : String :=
  String.ofList (Hex.ofOffset o ++ ": JUMPDEST".toList)

theorem render_line_jumpdest (pc : Nat) (rest : List UInt8) :
    (Table.evm.stepOf pc Opcode.jumpdest rest).line.render = jumpdestLine pc := by
  have hpush : (Table.evm.stepOf pc Opcode.jumpdest rest).insn.isPush = false :=
    rfl
  have hname : Opcode.name? Opcode.jumpdest = some "JUMPDEST" := by
    decide +kernel
  have hmnemonic : (Table.evm.stepOf pc Opcode.jumpdest rest).insn.mnemonic =
      "JUMPDEST" := Opcode.mnemonic_of_name? hname
  have hoperand : (Table.evm.stepOf pc Opcode.jumpdest rest).insn.operand = [] :=
    rfl
  have htext : ": JUMPDEST".toList = ':' :: ' ' :: "JUMPDEST".toList := by
    decide
  rw [Step.line, if_neg (by simp [hpush]), Line.render_code,
    Instruction.text_of_operand_nil hoperand, hmnemonic, jumpdestLine,
    htext]
  rfl

theorem read?_jumpdestLine (o : Nat) :
    Line.read? (jumpdestLine o) = some (o, [Opcode.jumpdest]) := by
  rw [← render_line_jumpdest o [], Table.read?_line_stepOf_evm]
  rfl

/-- A segment starts at a boundary, with the byte that is there. -/
theorem exists_boundary_of_mem_segments {code : List UInt8} {g : Segment}
    (h : g ∈ Table.evm.segments code) :
    Boundary code g.extent.1 ∧ code[g.extent.1]? = g.extent.2.head? := by
  have hfirst : ∃ s ∈ g.steps, s.offset = g.extent.1 ∧
      g.extent.2.head? = some s.insn.opcode := by
    cases g with
    | code s => exact ⟨s, List.mem_singleton_self s, rfl, rfl⟩
    | data first more => exact ⟨first, List.mem_cons_self, rfl, rfl⟩
  obtain ⟨s, hs, hoffset, hhead⟩ := hfirst
  rw [← hoffset, hhead]
  exact boundary_of_mem_sweep (Table.mem_sweep_of_mem_steps h hs)

theorem jumpdestLine_mem_render_iff {code : List UInt8} {o : Nat} :
    jumpdestLine o ∈ (disassemble code).render ↔ JumpTarget code o := by
  constructor
  · intro h
    have hread := List.mem_map_of_mem (f := Line.read?) h
    rw [read?_jumpdestLine, map_read?_render, List.map_map] at hread
    obtain ⟨g, hg, hextent⟩ := List.mem_map.1 hread
    have hextent := Option.some.inj hextent
    have hstart := exists_boundary_of_mem_segments hg
    rw [hextent] at hstart
    exact hstart
  · rintro ⟨hboundary, hbyte⟩
    obtain ⟨i, rfl, hi⟩ := boundary_iff.1 hboundary
    rw [getElem?_offsetAt_evm hi, Option.some.injEq] at hbyte
    have hdata := Table.evm.not_isData_of_opcode_eq code hbyte
    have hmem := code_mem_segments_iff.2 ⟨i, hi, hdata, rfl⟩
    have hline : (Table.evm.stepAt code i).line.render =
        jumpdestLine (Table.evm.offsetAt code i) := by
      have hget : code.getD (Table.evm.offsetAt code i) 0 = Opcode.jumpdest :=
        hbyte
      rw [← Table.stepOf_eq_stepAt, hget, render_line_jumpdest]
    rw [render_eq_map_line, ← hline]
    exact List.mem_map.2 ⟨_, hmem, rfl⟩

theorem nodup_render (code : List UInt8) : (disassemble code).render.Nodup := by
  apply List.Nodup.of_map Line.read?
  rw [map_read?_render]
  apply List.Nodup.map fun _ _ => Option.some.inj
  apply List.Nodup.of_map Prod.fst
  exact (pairwise_fst_extent_evm code).imp Nat.ne_of_lt

/-- A line of code is the first one, or a valid destination of a jump, or goes on
from a line of code. -/
theorem opened_of_mem_codeOffsets {code : List UInt8} {o : Nat}
    (h : o ∈ codeOffsets code) :
    o = 0 ∨ JumpTarget code o ∨
      ∃ i b, i ∈ codeOffsets code ∧ code[i]? = some b ∧
        Opcode.isTerminating b = false ∧ i + 1 + Opcode.width b = o := by
  obtain ⟨i, rfl, hi, hdata⟩ := mem_codeOffsets_iff.1 h
  cases i with
  | zero => exact Or.inl rfl
  | succ i =>
      rcases jumpTarget_or_fall hi hdata with
        htarget | ⟨hlt, hbefore, b, hb, hterm, hnext⟩
      · exact Or.inr (Or.inl htarget)
      · exact Or.inr (Or.inr ⟨_, b,
          mem_codeOffsets_iff.2 ⟨i, rfl, hlt, hbefore⟩, hb, hterm, hnext.symm⟩)

/-- The printed lines of JUMPDESTs are exactly those of the JUMPDEST bytes outside
operands. Each is printed once, nothing starts in an operand, and nothing but such a
JUMPDEST opens code. -/
theorem jumpdest_lines_exact (code : List UInt8) (o : Nat) :
    (jumpdestLine o ∈ (disassemble code).render ↔
        code[o]? = some Opcode.jumpdest ∧ ¬ InOperand code o) ∧
      (disassemble code).render.count (jumpdestLine o) ≤ 1 ∧
      (InOperand code o → ∀ l ∈ (disassemble code).lines, l.offset ≠ o) ∧
      (o ∈ codeOffsets code → o = 0 ∨ JumpTarget code o ∨
        ∃ i b, i ∈ codeOffsets code ∧ code[i]? = some b ∧
          Opcode.isTerminating b = false ∧ i + 1 + Opcode.width b = o) := by
  refine ⟨?_, ?_, ?_, opened_of_mem_codeOffsets⟩
  · rw [jumpdestLine_mem_render_iff, JumpTarget, and_comm]
    apply and_congr_right
    intro hbyte
    exact boundary_iff_not_inOperand (List.getElem?_eq_some_iff.1 hbyte).1
  · exact List.nodup_iff_count_le_one.1 (nodup_render code) _
  · intro ho l hl heq
    rw [lines_disassemble] at hl
    obtain ⟨g, hg, rfl⟩ := List.mem_map.1 hl
    have hboundary := (exists_boundary_of_mem_segments hg).1
    rw [← g.offset_line, heq] at hboundary
    exact hboundary.not_inOperand ho

end BytecodeListing
