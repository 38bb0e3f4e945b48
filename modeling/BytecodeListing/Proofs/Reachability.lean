import Mathlib.Data.Set.Basic
import Mathlib.Logic.Relation
import Mathlib.Order.Bounds.Defs
import BytecodeListing.Proofs.Boundaries
import BytecodeListing.Proofs.Lossless

/-!
# Code is what can be reached

The lines of code of a listing start at the offsets that execution can reach: the
first byte, the valid destinations of jumps, and what follows a reached instruction
that does not terminate. `FlowClosed` collects these rules, and the main theorem
says that the offsets of the lines of code are the least set closed under them. In
one direction every rule leads from a line of code to a line of code; in the other a
step of code is reached from the steps in front of it, by induction on its number.

A run is a sequence of moves from the first byte on, and it stays on lines of code. The
offsets are the same when they are read off the printed lines (`printedOffsets_eq`).
-/

namespace BytecodeListing

/-- The offsets at which the listing of a code has a line of code. -/
def codeOffsets (code : List UInt8) : Set Nat :=
  {o | ∃ l ∈ (disassemble code).lines, l.isData = false ∧ l.offset = o}

/-- The offsets that are read off the printed lines of a code, those of data left out. -/
def printedOffsets (code : List UInt8) : Set Nat :=
  {o | ∃ line ∈ (disassemble code).render, Line.word line ≠ "DATA".toList ∧
    ∃ bytes, Line.read? line = some (o, bytes)}

/-- A set of offsets into a code that holds the start, every valid destination of a
jump, and with an instruction that does not terminate also the next one. -/
structure FlowClosed (code : List UInt8) (R : Set Nat) : Prop where
  lt_length (o : Nat) : o ∈ R → o < code.length
  start : 0 < code.length → 0 ∈ R
  target (o : Nat) : JumpTarget code o → o ∈ R
  fall (i : Nat) (b : UInt8) : i ∈ R → code[i]? = some b →
    Opcode.isTerminating b = false → i + 1 + Opcode.width b < code.length →
      i + 1 + Opcode.width b ∈ R

/-- One move of a run: on to the next instruction, or to a valid destination of a
jump. -/
inductive Moves (code : List UInt8) : Nat → Nat → Prop
  | fall {i : Nat} {b : UInt8} (hb : code[i]? = some b)
      (hterm : Opcode.isTerminating b = false)
      (h : i + 1 + Opcode.width b < code.length) :
      Moves code i (i + 1 + Opcode.width b)
  | jump {i o : Nat} (h : JumpTarget code o) : Moves code i o

theorem code_mem_segments_iff {t : Table} {code : List UInt8} {s : Step} :
    Segment.code s ∈ t.segments code ↔
      ∃ i, t.offsetAt code i < code.length ∧ ¬ t.IsData code i ∧
        t.stepAt code i = s := by
  rw [Table.segments, Segment.code_mem_ofTrace, Table.trace_sweep,
    List.mem_map]
  constructor
  · rintro ⟨i, hi, heq⟩
    obtain ⟨hmode, hstep⟩ := Prod.mk.inj heq
    exact ⟨i, (t.mem_indices code).1 hi, (t.modeAt_eq_code_iff code).1 hmode,
      hstep⟩
  · rintro ⟨i, hi, hdata, rfl⟩
    refine ⟨i, (t.mem_indices code).2 hi, ?_⟩
    rw [(t.modeAt_eq_code_iff code).2 hdata]

theorem exists_segment_of_mem_codeOffsets {code : List UInt8} {o : Nat}
    (h : o ∈ codeOffsets code) :
    ∃ s, Segment.code s ∈ Table.evm.segments code ∧ s.offset = o := by
  obtain ⟨l, hl, hdata, rfl⟩ := h
  rw [lines_disassemble] at hl
  obtain ⟨g, hg, rfl⟩ := List.mem_map.1 hl
  cases g with
  | code s => exact ⟨s, hg, (Step.offset_line s).symm⟩
  | data first more => cases hdata

theorem mem_codeOffsets_iff {code : List UInt8} {o : Nat} :
    o ∈ codeOffsets code ↔
      ∃ i, Table.evm.offsetAt code i = o ∧ o < code.length ∧
        ¬ Table.evm.IsData code i := by
  constructor
  · intro h
    obtain ⟨s, hs, rfl⟩ := exists_segment_of_mem_codeOffsets h
    obtain ⟨i, hi, hdata, rfl⟩ := code_mem_segments_iff.1 hs
    exact ⟨i, rfl, hi, hdata⟩
  · rintro ⟨i, rfl, hi, hdata⟩
    have hs := code_mem_segments_iff.2 ⟨i, hi, hdata, rfl⟩
    refine ⟨(Table.evm.stepAt code i).line, ?_, Step.isData_line _,
      Step.offset_line _⟩
    rw [lines_disassemble]
    exact List.mem_map.2 ⟨_, hs, rfl⟩

theorem printedOffsets_eq (code : List UInt8) : printedOffsets code = codeOffsets code := by
  ext o
  rw [mem_codeOffsets_iff]
  constructor
  · rintro ⟨line, hline, hword, bytes, hread⟩
    rw [render_eq_map_line] at hline
    obtain ⟨g, hg, rfl⟩ := List.mem_map.1 hline
    rw [Table.read?_line_of_mem_segments hg] at hread
    cases g with
    | code s =>
        obtain ⟨i, hi, hdata, hstep⟩ := code_mem_segments_iff.1 hg
        have hoffset : s.offset = o := congrArg Prod.fst (Option.some.inj hread)
        have hplace : Table.evm.offsetAt code i = o := by
          rw [← hoffset, ← hstep]
          rfl
        rw [hplace] at hi
        exact ⟨i, hplace, hi, hdata⟩
    | data first more => exact absurd (Line.word_render_data _ _) hword
  · rintro ⟨i, rfl, hi, hdata⟩
    have hs := code_mem_segments_iff.2 ⟨i, hi, hdata, rfl⟩
    have hread := Table.read?_line_of_mem_segments hs
    rw [Segment.line, Segment.extent, Step.extent] at hread
    refine ⟨(Table.evm.stepAt code i).line.render, ?_, ?_, _, hread⟩
    · rw [render_eq_map_line]
      exact List.mem_map.2 ⟨_, hs, rfl⟩
    · rw [← Table.stepOf_eq_stepAt, Table.word_line_stepOf_evm]
      exact Opcode.mnemonic_ne_data _

theorem flowClosed_codeOffsets (code : List UInt8) :
    FlowClosed code (codeOffsets code) where
  lt_length o h := by
    obtain ⟨_, _, hlt, _⟩ := mem_codeOffsets_iff.1 h
    exact hlt
  start h := mem_codeOffsets_iff.2
    ⟨0, rfl, h, Table.evm.not_isData_zero code⟩
  target o h := by
    obtain ⟨i, rfl, hi⟩ := boundary_iff.1 h.1
    have hop := h.2
    rw [getElem?_offsetAt_evm hi, Option.some.injEq] at hop
    exact mem_codeOffsets_iff.2
      ⟨i, rfl, hi, Table.evm.not_isData_of_opcode_eq code hop⟩
  fall o b ho hb hterm h := by
    obtain ⟨i, rfl, hi, hdata⟩ := mem_codeOffsets_iff.1 ho
    rw [getElem?_offsetAt_evm hi, Option.some.injEq] at hb
    refine mem_codeOffsets_iff.2 ⟨i + 1, ?_, h, ?_⟩
    · rw [offsetAt_succ_evm, hb]
      omega
    · rw [Table.isData_succ]
      rintro ⟨-, hdata' | hterm'⟩
      · exact hdata hdata'
      · rw [hb, hterm] at hterm'
        cases hterm'

/-- How code comes about behind the first step: at a valid destination of a jump, or
behind code that does not terminate. -/
theorem jumpTarget_or_fall {code : List UInt8} {i : Nat}
    (hi : Table.evm.offsetAt code (i + 1) < code.length)
    (hdata : ¬ Table.evm.IsData code (i + 1)) :
    JumpTarget code (Table.evm.offsetAt code (i + 1)) ∨
      Table.evm.offsetAt code i < code.length ∧ ¬ Table.evm.IsData code i ∧
        ∃ b, code[Table.evm.offsetAt code i]? = some b ∧
          Opcode.isTerminating b = false ∧
          Table.evm.offsetAt code (i + 1) =
            Table.evm.offsetAt code i + 1 + Opcode.width b := by
  by_cases hop : (Table.evm.entryAt code (i + 1)).opcode = Opcode.jumpdest
  · refine Or.inl ⟨boundary_offsetAt hi, ?_⟩
    rw [getElem?_offsetAt_evm hi, hop]
  · rw [Table.isData_succ, not_and, not_or] at hdata
    obtain ⟨hbefore, hterm⟩ := hdata hop
    have hlt := Nat.lt_of_le_of_lt (Table.evm.offsetAt_le_succ code i) hi
    refine Or.inr ⟨hlt, hbefore, _, getElem?_offsetAt_evm hlt,
      Bool.eq_false_iff.2 hterm, ?_⟩
    rw [offsetAt_succ_evm] at hi ⊢
    omega

/-- A set closed under the rules of the flow holds every line of code. -/
theorem FlowClosed.codeOffsets_subset {code : List UInt8} {R : Set Nat}
    (hR : FlowClosed code R) : codeOffsets code ⊆ R := by
  intro o ho
  obtain ⟨i, rfl, hi, hdata⟩ := mem_codeOffsets_iff.1 ho
  clear ho
  induction i with
  | zero => exact hR.start hi
  | succ i ih =>
      rcases jumpTarget_or_fall hi hdata with
        htarget | ⟨hlt, hbefore, b, hb, hterm, hnext⟩
      · exact hR.target _ htarget
      · rw [hnext] at hi ⊢
        exact hR.fall _ b (ih hlt hbefore) hb hterm hi

theorem not_mem_data_of_mem_codeOffsets {code : List UInt8} {o start : Nat}
    {bytes : List UInt8} (ho : o ∈ codeOffsets code)
    (hl : Line.data start bytes ∈ (disassemble code).lines) :
    ¬ (start ≤ o ∧ o < start + bytes.length) := by
  obtain ⟨s, hs, rfl⟩ := exists_segment_of_mem_codeOffsets ho
  rw [lines_disassemble] at hl
  obtain ⟨g, hg, hline⟩ := List.mem_map.1 hl
  cases g with
  | code s' =>
      have hdata := congrArg Line.isData hline
      rw [Segment.line, Step.isData_line] at hdata
      cases hdata
  | data first more =>
      obtain ⟨rfl, rfl⟩ := Line.data.inj hline
      have hpos := (Segment.code s).length_extent_pos
      have hdisjoint := Table.lawful_evm.disjoint_segments hs hg (by simp)
      simp only [Segment.extent, Step.extent] at hpos hdisjoint
      omega

theorem mem_codeOffsets_of_moves {code : List UInt8} {o : Nat}
    (h : Relation.ReflTransGen (Moves code) 0 o) (hcode : 0 < code.length) :
    o ∈ codeOffsets code := by
  induction h with
  | refl => exact (flowClosed_codeOffsets code).start hcode
  | tail _ hmove ih =>
      cases hmove with
      | fall hb hterm h => exact (flowClosed_codeOffsets code).fall _ _ ih hb hterm h
      | jump h => exact (flowClosed_codeOffsets code).target _ h

/-- The lines of code start at the offsets that execution can reach, also as they are
printed, and no run comes upon an instruction in a run of data. -/
theorem codeOffsets_isLeast_flowClosed (code : List UInt8) :
    IsLeast {R | FlowClosed code R} (codeOffsets code) ∧
      printedOffsets code = codeOffsets code ∧
      ∀ o, Relation.ReflTransGen (Moves code) 0 o →
        ∀ start bytes, Line.data start bytes ∈ (disassemble code).lines →
          ¬ (start ≤ o ∧ o < start + bytes.length) := by
  refine ⟨⟨flowClosed_codeOffsets code, ?_⟩, printedOffsets_eq code, ?_⟩
  · intro R hR
    exact FlowClosed.codeOffsets_subset hR
  · intro o hrun start bytes hl
    have hcode : 0 < code.length := by
      cases code with
      | nil =>
          rw [lines_disassemble, Table.segments, Table.sweep_eq_steps,
            Table.steps_nil] at hl
          cases hl
      | cons b code => exact Nat.succ_pos _
    exact not_mem_data_of_mem_codeOffsets (mem_codeOffsets_of_moves hrun hcode) hl

end BytecodeListing
