import BytecodeListing.Proofs.Lossless
import BytecodeListing.Proofs.Splicing

/-!
# Listings of codes that grow

When bytes are put behind a code, the lines in front of its last one stay. The last
line stays as well if it is a complete instruction; a run of data and the operand of
a truncated push may go on. `Line.GrowsTo` says what the last line may become.

The code is cut at its last instruction. Whether its operand is complete or cut off,
in code or in data, is settled on this one step.
-/

namespace BytecodeListing

namespace Line

/-- The text of a push in front of the digits of its operand. -/
def pushStem (offset width : Nat) : List Char :=
  Hex.ofOffset offset ++ ": PUSH".toList ++ (toString width).toList ++ " 0x".toList

/-- The text of a push of `width` bytes with the operand bytes that are there. It is
marked where some are missing. -/
def pushText (offset width : Nat) (operand : List UInt8) : List Char :=
  pushStem offset width ++ Hex.ofBytes operand ++
    if operand.length < width then truncationMark.toList else []

/-- What the last line of a code may become when the code goes on. -/
def GrowsTo : Line → Line → Prop
  | code offset insn, l => l = code offset insn
  | truncated offset width present, l =>
      l.offset = offset ∧ ∃ more, l.text = pushText offset width (present ++ more)
  | data offset bytes, l => ∃ more, l = data offset (bytes ++ more)

theorem growsTo_data {offset : Nat} {bytes bytes' : List UInt8}
    (h : bytes <+: bytes') : (data offset bytes).GrowsTo (data offset bytes') := by
  obtain ⟨more, rfl⟩ := h
  exact ⟨more, rfl⟩

theorem GrowsTo.offset_eq {l l' : Line} (h : l.GrowsTo l') :
    l'.offset = l.offset := by
  cases l with
  | code offset insn => rw [show l' = code offset insn from h]
  | truncated offset width present => exact h.1
  | data offset bytes =>
      obtain ⟨more, rfl⟩ := h
      rfl

end Line

/-- What the listing of a code may become when the code goes on: all lines but the last
stay, and the last one grows at its place. -/
def Listing.GrowsTo (listing grown : Listing) : Prop :=
  ∃ before last last' behind,
    listing.lines = before ++ [last] ∧ grown.lines = before ++ last' :: behind ∧
      last'.offset = last.offset ∧ last.GrowsTo last'

theorem Segment.line_data (first : Step) (more : List Step) :
    (data first more).line =
      .data (data first more).extent.1 (data first more).extent.2 := rfl

namespace Table

theorem line_stepOf_of_lt {b : UInt8} {rest : List UInt8}
    (h : rest.length < Opcode.width b) (pc : Nat) :
    (evm.stepOf pc b rest).line = .truncated pc (Opcode.width b) rest := by
  have hpush := lawful_evm.isPush_of_width_pos b (Nat.zero_lt_of_lt h)
  have hpushed : (evm.stepOf pc b rest).pushed = rest := by
    rw [lawful_evm.pushed_stepOf]
    exact List.take_of_length_le (Nat.le_of_lt h)
  rw [Step.line, hpushed, if_pos ⟨hpush, h⟩]
  rfl

theorem line_stepOf_of_le {b : UInt8} {rest : List UInt8}
    (h : Opcode.width b ≤ rest.length) (pc : Nat) :
    (evm.stepOf pc b rest).line = .code pc (evm.stepOf pc b rest).insn := by
  have hpushed : (evm.stepOf pc b rest).pushed.length = Opcode.width b := by
    rw [lawful_evm.pushed_stepOf]
    exact List.length_take_of_le h
  rw [Step.line, hpushed, if_neg fun hlt => Nat.lt_irrefl _ hlt.2]
  rfl

theorem text_line_plain {b : UInt8} (h : Opcode.width b = 0) (pc : Nat)
    (rest : List UInt8) :
    (evm.stepOf pc b rest).line.text =
      Hex.ofOffset pc ++ ':' :: ' ' :: (evm b).mnemonic.toList := by
  have hoperand : (evm.stepOf pc b rest).insn.operand = [] := by
    simp [stepOf, evm, h]
  rw [line_stepOf_of_le (h.trans_le (Nat.zero_le _)), Line.text,
    Instruction.text_of_operand_nil hoperand, List.append_assoc]
  rfl

/-- The line of a push shows its width and the operand bytes that are there. -/
theorem text_line_push {b : UInt8} (h : 0 < Opcode.width b) (pc : Nat)
    (rest : List UInt8) :
    (evm.stepOf pc b rest).line.text =
      Line.pushText pc (Opcode.width b) (rest.take (Opcode.width b)) := by
  rcases Nat.lt_or_ge rest.length (Opcode.width b) with hlt | hge
  · rw [line_stepOf_of_lt hlt, List.take_of_length_le (Nat.le_of_lt hlt),
      Line.pushText, if_pos hlt]
    rfl
  · have hlength : (rest.take (Opcode.width b)).length = Opcode.width b :=
      List.length_take_of_le hge
    have hoperand : (evm.stepOf pc b rest).insn.operand ≠ [] := by
      rw [← List.length_pos_iff]
      exact hlength.symm ▸ h
    have hname : (evm.stepOf pc b rest).insn.mnemonic.toList =
        "PUSH".toList ++ (toString (Opcode.width b)).toList := by
      rw [← String.toList_append]
      exact congrArg _ (Opcode.mnemonic_of_isPush (lawful_evm.isPush_of_width_pos b h))
    rw [line_stepOf_of_le hge, Line.text, Instruction.text_of_operand_ne_nil hoperand,
      hname, Line.pushText, hlength, if_neg (Nat.lt_irrefl _)]
    simp [Line.pushStem, stepOf, evm]

theorem take_width_append {b : UInt8} {rest : List UInt8}
    (h : rest.length ≤ Opcode.width b) (more : List UInt8) :
    (rest ++ more).take (Opcode.width b) =
      rest ++ more.take (Opcode.width b - rest.length) := by
  rw [List.take_append, List.take_of_length_le h]

theorem bytes_stepOf_of_le {b : UInt8} {rest : List UInt8}
    (h : rest.length ≤ Opcode.width b) (pc : Nat) :
    (evm.stepOf pc b rest).bytes = b :: rest := by
  rw [lawful_evm.bytes_stepOf]
  exact congrArg (b :: ·) (List.take_of_length_le h)

theorem bytes_stepOf_append {b : UInt8} {rest : List UInt8}
    (h : rest.length ≤ Opcode.width b) (pc : Nat) (more : List UInt8) :
    (evm.stepOf pc b (rest ++ more)).bytes =
      b :: rest ++ more.take (Opcode.width b - rest.length) := by
  rw [lawful_evm.bytes_stepOf]
  exact congrArg (b :: ·) (take_width_append h more)

/-- The line of the last instruction of a code, and what it becomes when bytes are put
behind it. -/
theorem growsTo_line_stepOf {b : UInt8} {rest : List UInt8}
    (h : rest.length ≤ Opcode.width b) (pc : Nat) (more : List UInt8) :
    (evm.stepOf pc b rest).line.GrowsTo (evm.stepOf pc b (rest ++ more)).line := by
  rcases Nat.lt_or_ge rest.length (Opcode.width b) with hlt | hge
  · rw [line_stepOf_of_lt hlt]
    refine ⟨Step.offset_line _, more.take (Opcode.width b - rest.length), ?_⟩
    rw [text_line_push (Nat.zero_lt_of_lt hlt), take_width_append h]
  · have htake : (rest ++ more).take (evm b).take = rest.take (evm b).take :=
      List.take_append_of_le_length hge
    rw [lawful_evm.stepOf_congr pc b htake, line_stepOf_of_le hge]
    rfl

theorem Whole.growsTo_of_code {x : List UInt8} (hx : evm.Whole x) {b : UInt8}
    (hcode : evm.modeBehind x = .code ∨ (evm b).opcode = Opcode.jumpdest)
    {rest : List UInt8} (h : rest.length ≤ Opcode.width b) (more : List UInt8) :
    (disassemble (x ++ b :: rest)).GrowsTo
      (disassemble (x ++ b :: (rest ++ more))) := by
  have hlast := hx.segments_of_code lawful_evm hcode rest
  have hgrown := hx.segments_of_code lawful_evm hcode (rest ++ more)
  have hgrows := growsTo_line_stepOf h x.length more
  rw [evm.segmentsBehind_of_length_le _ _ h] at hlast
  rw [Listing.GrowsTo, lines_disassemble, lines_disassemble, hlast, hgrown,
    List.map_append, List.map_append, List.map_cons, List.map_cons]
  exact ⟨_, _, _, _, rfl, rfl, hgrows.offset_eq, hgrows⟩

/-- The last instruction stands in a run of data, which goes on with it. -/
theorem Whole.growsTo_of_data {x : List UInt8} (hx : evm.Whole x) {b : UInt8}
    (hmode : evm.modeBehind x = .data) (hop : (evm b).opcode ≠ Opcode.jumpdest)
    {rest : List UInt8} (h : rest.length ≤ Opcode.width b) (more : List UInt8) :
    (disassemble (x ++ b :: rest)).GrowsTo
      (disassemble (x ++ b :: (rest ++ more))) := by
  obtain ⟨before, start, front, -, hsegs⟩ := hx.segments_of_data lawful_evm hmode hop
  obtain ⟨first, tail, hlast, hextent⟩ := hsegs rest
  obtain ⟨first', tail', hgrown, hextent'⟩ := hsegs (rest ++ more)
  rw [evm.segmentsBehind_of_length_le _ _ h] at hlast hextent
  have hgrows : (Segment.data first tail).line.GrowsTo
      (Segment.data first' tail').line := by
    rw [Segment.line_data, Segment.line_data, hextent, hextent']
    apply Line.growsTo_data
    rw [bytes_stepOf_of_le h, bytes_stepOf_append h]
    simp [Segment.lead]
  rw [Listing.GrowsTo, lines_disassemble, lines_disassemble, hlast, hgrown,
    List.map_append, List.map_append, List.map_cons, List.map_cons]
  exact ⟨_, _, _, _, rfl, rfl, hgrows.offset_eq, hgrows⟩

end Table

/-- Bytes put behind a code change none of its lines but the last, and that one only
where data or a truncated push goes on. -/
theorem disassemble_append_grows {a : List UInt8} (ha : a ≠ []) (b : List UInt8) :
    (disassemble a).GrowsTo (disassemble (a ++ b)) := by
  have hlast : a.length - 1 < a.length :=
    Nat.sub_lt (List.length_pos_iff.2 ha) Nat.zero_lt_one
  obtain ⟨x, op, rest, rfl, hx, -, hle⟩ := Table.evm.exists_whole_append hlast
  have hrest : rest.length ≤ Opcode.width op := by
    rw [List.length_append, List.length_cons] at hle
    change _ ≤ x.length + Opcode.width op at hle
    omega
  rw [List.append_assoc, List.cons_append]
  rcases Table.evm.code_or_data x op with hcode | ⟨hmode, hop⟩
  · exact hx.growsTo_of_code hcode hrest b
  · exact hx.growsTo_of_data hmode hop hrest b

/-- A push that is cut off in a run of data is completed, and data follows it. -/
theorem disassemble_append_grows_data :
    ([0x00, 0x61, 0x01] : List UInt8) ≠ [] ∧
      (disassemble [0x00, 0x61, 0x01]).GrowsTo
        (disassemble [0x00, 0x61, 0x01, 0x5b, 0x02]) :=
  ⟨by decide, disassemble_append_grows (by decide) [0x5b, 0x02]⟩

end BytecodeListing
