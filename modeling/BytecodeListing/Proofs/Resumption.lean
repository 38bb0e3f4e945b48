import BytecodeListing.Proofs.Lossless
import BytecodeListing.Proofs.Splicing

/-!
# Listings start afresh at a JUMPDEST

Bytes are listed in the same way wherever they start: the steps, the segments and
the lines are moved by the difference of the offsets, and nothing else depends on
where they are (`segmentsFrom_moveBy`). A JUMPDEST is read as code whatever mode it
is met in, so behind whole instructions it starts the listing of the bytes from it
on, moved to its offset. On printed lines moving is `Line.moveText`, which reads the
offset of a line and writes another in its place.
-/

namespace BytecodeListing

/-- The step at an offset that is greater by `k`. -/
def Step.moveBy (k : Nat) (s : Step) : Step :=
  { s with
    offset := s.offset + k
    insn := { s.insn with offset := s.insn.offset + k } }

/-- The segment at an offset that is greater by `k`. -/
def Segment.moveBy (k : Nat) : Segment → Segment
  | code step => code (step.moveBy k)
  | data first more => data (first.moveBy k) (more.map (Step.moveBy k))

namespace Line

/-- The line at an offset that is greater by `k`. -/
def moveBy (k : Nat) : Line → Line
  | code offset insn => code (offset + k) { insn with offset := insn.offset + k }
  | truncated offset width present => truncated (offset + k) width present
  | data offset bytes => data (offset + k) bytes

/-- The printed line with an offset that is greater by `k`. -/
def moveText (k : Nat) (line : String) : String :=
  match Hex.offset? (cut ':' line.toList).1 with
  | some offset => String.ofList (Hex.ofOffset (offset + k) ++ (cut ':' line.toList).2)
  | none => line

theorem moveText_ofList (k offset : Nat) (body : List Char) :
    moveText k (String.ofList (Hex.ofOffset offset ++ ':' :: body)) =
      String.ofList (Hex.ofOffset (offset + k) ++ ':' :: body) := by
  have hcut := cut_append (Hex.written_ofOffset offset).colon_not_mem body
  rw [moveText, String.toList_ofList, hcut]
  simp only [Hex.offset?_ofOffset]

theorem render_moveBy (k : Nat) (l : Line) :
    (l.moveBy k).render = moveText k l.render := by
  cases l with
  | code offset insn =>
      rw [moveBy, render_code, render_code, moveText_ofList]
      rfl
  | truncated offset width present =>
      rw [moveBy, render_truncated, render_truncated, moveText_ofList]
  | data offset bytes =>
      rw [moveBy, render_data, render_data, moveText_ofList]

end Line

section Moved

variable (k : Nat)

theorem Step.line_moveBy (s : Step) : (s.moveBy k).line = s.line.moveBy k := by
  rw [Step.line, Step.line, apply_ite (Line.moveBy k)]
  rfl

theorem Segment.line_moveBy (g : Segment) :
    (g.moveBy k).line = g.line.moveBy k := by
  cases g with
  | code s => exact s.line_moveBy k
  | data first more =>
      have hbytes : ((first :: more).map (Step.moveBy k)).flatMap Step.bytes =
          (first :: more).flatMap Step.bytes := List.flatMap_map _ _ _
      rw [Segment.moveBy, Segment.line, ← List.map_cons, hbytes]
      rfl

theorem Mode.trace_moveBy (mode : Mode) (steps : List Step) :
    mode.trace (steps.map (Step.moveBy k)) =
      (mode.trace steps).map (Prod.map id (Step.moveBy k)) := by
  induction steps generalizing mode with
  | nil => rfl
  | cons s steps ih =>
      rw [List.map_cons, Mode.trace_cons, ih, Mode.trace_cons, List.map_cons]
      rfl

theorem Segment.extend_moveBy (s : Step) (segs : List Segment) :
    extend (s.moveBy k) (segs.map (Segment.moveBy k)) =
      (extend s segs).map (Segment.moveBy k) := by
  cases segs with
  | nil => rfl
  | cons g segs => cases g <;> rfl

theorem Segment.ofTrace_moveBy (marked : List (Mode × Step)) :
    ofTrace (marked.map (Prod.map id (Step.moveBy k))) =
      (ofTrace marked).map (Segment.moveBy k) := by
  induction marked with
  | nil => rfl
  | cons m marked ih =>
      obtain ⟨mode, s⟩ := m
      cases mode with
      | code =>
          rw [List.map_cons, Prod.map_apply, id, ofTrace_cons_code, ih,
            ofTrace_cons_code, List.map_cons]
          rfl
      | data =>
          rw [List.map_cons, Prod.map_apply, id, ofTrace_cons_data, ih,
            ofTrace_cons_data, extend_moveBy]

theorem Table.steps_moveBy (t : Table) (pc : Nat) (bytes : List UInt8) :
    t.steps (pc + k) bytes = (t.steps pc bytes).map (Step.moveBy k) := by
  fun_induction steps t pc bytes with
  | case1 pc => rw [steps_nil, List.map_nil]
  | case2 pc b rest ih =>
      have hpc : pc + k + 1 + (rest.take (t b).take).length =
          pc + 1 + (rest.take (t b).take).length + k := by omega
      have hstep : t.stepOf (pc + k) b rest = (t.stepOf pc b rest).moveBy k := by
        simp [stepOf, Step.moveBy, Nat.add_right_comm]
      rw [steps_cons, hpc, ih, hstep, List.map_cons]

theorem Table.segmentsFrom_moveBy (t : Table) (mode : Mode) (pc : Nat)
    (bytes : List UInt8) :
    t.segmentsFrom mode (pc + k) bytes =
      (t.segmentsFrom mode pc bytes).map (Segment.moveBy k) := by
  rw [segmentsFrom, steps_moveBy, Mode.trace_moveBy, Segment.ofTrace_moveBy,
    segmentsFrom]

end Moved

theorem Table.Whole.lines_append_jumpdest {a : List UInt8}
    (ha : Table.evm.Whole a) (b : List UInt8) :
    (disassemble (a ++ Opcode.jumpdest :: b)).lines =
      (disassemble a).lines ++
        (disassemble (Opcode.jumpdest :: b)).lines.map (Line.moveBy a.length) := by
  have hsegs := ha.segments_of_code Table.lawful_evm (b := Opcode.jumpdest)
    (Or.inr rfl) b
  rw [← Table.segmentsFrom_code_cons, ← Nat.zero_add a.length,
    Table.segmentsFrom_moveBy, ← Table.segments_eq_segmentsFrom] at hsegs
  rw [lines_disassemble, lines_disassemble, lines_disassemble, hsegs,
    List.map_append, List.map_map, List.map_map]
  congr 1
  apply List.map_congr_left
  intro g _
  exact g.line_moveBy a.length

/-- Behind a code whose sweep ends exactly at its end a JUMPDEST starts a listing of
its own, in which nothing in front of it has a part but for the offset. -/
theorem disassemble_append_jumpdest {a : List UInt8}
    (ha : ∀ s ∈ Table.evm.sweep a, s.insn.operand.length = s.insn.width)
    (b : List UInt8) :
    (disassemble (a ++ Opcode.jumpdest :: b)).lines =
        (disassemble a).lines ++
          (disassemble (Opcode.jumpdest :: b)).lines.map (Line.moveBy a.length) ∧
      (disassemble (a ++ Opcode.jumpdest :: b)).render =
        (disassemble a).render ++
          (disassemble (Opcode.jumpdest :: b)).render.map
            (Line.moveText a.length) := by
  have hlines := (Table.lawful_evm.whole_iff.2 ha).lines_append_jumpdest b
  refine ⟨hlines, ?_⟩
  rw [Listing.render, hlines, List.map_append, List.map_map, Listing.render,
    Listing.render, List.map_map]
  congr 1
  apply List.map_congr_left
  intro l _
  exact l.render_moveBy a.length

/-- The JUMPDEST behind a push that is data: the two JUMPDEST bytes of the operand
open nothing, the one behind it does. -/
theorem disassemble_append_jumpdest_behind_data :
    (∀ s ∈ Table.evm.sweep [0x56, 0x61, 0x5b, 0x5b],
        s.insn.operand.length = s.insn.width) ∧
      (disassemble [0x56, 0x61, 0x5b, 0x5b, 0x5b, 0x60]).render =
        (disassemble [0x56, 0x61, 0x5b, 0x5b]).render ++
          (disassemble [0x5b, 0x60]).render.map (Line.moveText 4) := by
  have hpush : Table.evm.Whole (0x61 :: ([0x5b, 0x5b] ++ [])) := .cons rfl .nil
  have hwhole : Table.evm.Whole (0x56 :: ([] ++ [0x61, 0x5b, 0x5b])) :=
    .cons rfl hpush
  have hsweep := Table.lawful_evm.whole_iff.1 hwhole
  exact ⟨hsweep, (disassemble_append_jumpdest hsweep [0x60]).2⟩

end BytecodeListing
