import BytecodeListing.Proofs.Growth

/-!
# Operand bytes are inert

Another byte in the operand of an instruction moves no boundary, opens no code and
ends no run of data, whatever opcode it would be elsewhere. The listing stays as it
is but for two digits of the line that shows the byte.

The code is cut at the instruction and its operand at the byte. The instruction, the
mode it is read in and all that is behind its operand are the same for every value of
the byte, so only the line around the instruction is left to compare.
-/

namespace BytecodeListing

namespace Line

/-- The text of a run of data in front of the digits of its bytes. -/
def dataStem (offset : Nat) : List Char :=
  Hex.ofOffset offset ++ ": DATA 0x".toList

/-- The byte at an offset is among the bytes that the line stands for. -/
def Covers (l : Line) (i : Nat) : Prop :=
  ∃ bytes, read? l.render = some (l.offset, bytes) ∧
    l.offset ≤ i ∧ i < l.offset + bytes.length

/-- Two lines, both a run of data or both a push, are the same but for the two digits
of the byte at the offset `i`. -/
def RewrittenAt (i : Nat) (old new : UInt8) (l l' : Line) : Prop :=
  ∃ stem front back mark,
    l.text = stem ++ Hex.ofBytes front ++ Hex.ofByte old ++ Hex.ofBytes back ++ mark ∧
      l'.text = stem ++ Hex.ofBytes front ++ Hex.ofByte new ++ Hex.ofBytes back ++ mark ∧
      (stem = dataStem l.offset ∧ mark = [] ∧ l.offset + front.length = i ∨
        ∃ width, stem = pushStem l.offset width ∧
          (mark = [] ∨ mark = truncationMark.toList) ∧
          l.offset + 1 + front.length = i)

theorem rewrittenAt_data (offset : Nat) (front back : List UInt8) (old new : UInt8) :
    RewrittenAt (offset + front.length) old new
      (data offset (front ++ old :: back)) (data offset (front ++ new :: back)) := by
  refine ⟨dataStem offset, front, back, [], ?_, ?_, Or.inl ⟨rfl, rfl, rfl⟩⟩
  · simp [text, Region.line, dataStem]
  · simp [text, Region.line, dataStem]

theorem rewrittenAt_push {l l' : Line} {offset width : Nat} {front back : List UInt8}
    {old new : UInt8} (hoffset : l.offset = offset)
    (hl : l.text = pushText offset width (front ++ old :: back))
    (hl' : l'.text = pushText offset width (front ++ new :: back)) :
    RewrittenAt (offset + 1 + front.length) old new l l' := by
  refine ⟨pushStem offset width, front, back,
    if (front ++ old :: back).length < width then truncationMark.toList else [],
    ?_, ?_, Or.inr ⟨width, by rw [hoffset], ?_, by rw [hoffset]⟩⟩
  · rw [hl, pushText]
    simp
  · rw [hl', pushText]
    simp
  · split
    · exact Or.inr rfl
    · exact Or.inl rfl

end Line

/-- Two listings are the same line by line, but for the two digits of the byte at the
offset `i` in the one line that covers it. -/
def Listing.RewrittenAt (i : Nat) (old new : UInt8) (listing listing' : Listing) : Prop :=
  ∃ before l l' behind,
    listing.lines = before ++ l :: behind ∧ listing'.lines = before ++ l' :: behind ∧
      l'.offset = l.offset ∧ l.Covers i ∧ (∀ m ∈ before ++ behind, ¬ m.Covers i) ∧
      Line.RewrittenAt i old new l l'

theorem covers_line_iff {code : List UInt8} {g : Segment}
    (hg : g ∈ Table.evm.segments code) {i : Nat} :
    g.line.Covers i ↔ g.extent.1 ≤ i ∧ i < g.extent.1 + g.extent.2.length := by
  rw [Line.Covers, Table.read?_line_of_mem_segments hg, g.offset_line]
  constructor
  · rintro ⟨bytes, hbytes, hle, hlt⟩
    rw [Option.some.inj hbytes] at hlt ⊢
    exact ⟨hle, hlt⟩
  · rintro ⟨hle, hlt⟩
    exact ⟨g.extent.2, rfl, hle, hlt⟩

/-- No byte is covered by two lines. -/
theorem not_covers_of_segments {code : List UInt8} {before behind : List Segment}
    {g : Segment} (hsegs : Table.evm.segments code = before ++ g :: behind) {i : Nat}
    (hg : g.line.Covers i) :
    ∀ l ∈ before.map Segment.line ++ behind.map Segment.line, ¬ l.Covers i := by
  have hmem : ∀ g' ∈ before ++ g :: behind, g' ∈ Table.evm.segments code := by
    rw [hsegs]
    exact fun _ => id
  have hpairs := Table.lawful_evm.pairwise_segments code
  rw [hsegs, List.pairwise_append, List.pairwise_cons] at hpairs
  obtain ⟨-, ⟨hbehind, -⟩, hbefore⟩ := hpairs
  rw [covers_line_iff (hmem g (by simp))] at hg
  intro l hl
  rw [← List.map_append] at hl
  obtain ⟨g', hg', rfl⟩ := List.mem_map.1 hl
  rcases List.mem_append.1 hg' with hg' | hg'
  · rw [covers_line_iff (hmem g' (by simp [hg']))]
    have := hbefore g' hg' g List.mem_cons_self
    omega
  · rw [covers_line_iff (hmem g' (by simp [hg']))]
    have := hbehind g' hg'
    omega

theorem take_operand {n : Nat} {front : List UInt8} (h : front.length < n) (u : UInt8)
    (back : List UInt8) :
    (front ++ u :: back).take n = front ++ u :: back.take (n - front.length - 1) := by
  obtain ⟨k, rfl⟩ := Nat.exists_eq_add_of_lt h
  have hk : front.length + k + 1 - front.length = k + 1 := by omega
  rw [List.take_append, List.take_of_length_le (by omega), hk, List.take_succ_cons,
    Nat.add_sub_cancel]

namespace Table

/-- What is behind an operand does not depend on its bytes. -/
theorem segmentsBehind_operand (t : Table) (mode : Mode) (pc : Nat) {b : UInt8}
    {front : List UInt8} (h : front.length < (t b).take) (u v : UInt8)
    (back : List UInt8) :
    t.segmentsBehind mode pc b (front ++ u :: back) =
      t.segmentsBehind mode pc b (front ++ v :: back) := by
  have hdrop : ∀ u, (front ++ u :: back).drop (t b).take =
      back.drop ((t b).take - front.length - 1) := by
    intro u
    obtain ⟨k, hk⟩ := Nat.exists_eq_add_of_lt h
    have hsub : front.length + k + 1 - front.length = k + 1 := by omega
    rw [hk, List.drop_append, List.drop_of_length_le (by omega), hsub,
      List.drop_succ_cons, List.nil_append, Nat.add_sub_cancel]
  rw [segmentsBehind, segmentsBehind, hdrop, hdrop, take_operand h, take_operand h]
  simp

/-- The bytes of an instruction, cut at a byte of its operand. -/
theorem bytes_stepOf_operand {b : UInt8} {front : List UInt8}
    (h : front.length < Opcode.width b) (pc : Nat) (u : UInt8) (back : List UInt8) :
    (evm.stepOf pc b (front ++ u :: back)).bytes =
      b :: front ++ u :: back.take (Opcode.width b - front.length - 1) := by
  rw [lawful_evm.bytes_stepOf]
  exact congrArg (b :: ·) (take_operand h u back)

namespace Whole

variable {x : List UInt8} {b : UInt8} {front : List UInt8}

theorem rewrittenAt_of_code (hx : evm.Whole x)
    (hcode : evm.modeBehind x = .code ∨ (evm b).opcode = Opcode.jumpdest)
    (h : front.length < Opcode.width b) (u v : UInt8) (back : List UInt8) :
    Listing.RewrittenAt (x.length + 1 + front.length) u v
      (disassemble (x ++ b :: (front ++ u :: back)))
      (disassemble (x ++ b :: (front ++ v :: back))) := by
  have hold := hx.segments_of_code lawful_evm hcode (front ++ u :: back)
  have hnew := hx.segments_of_code lawful_evm hcode (front ++ v :: back)
  rw [evm.segmentsBehind_operand _ _ h v u] at hnew
  have hoffset : ∀ u, (evm.stepOf x.length b (front ++ u :: back)).line.offset =
      x.length := fun _ => Step.offset_line _
  have htext : ∀ u, (evm.stepOf x.length b (front ++ u :: back)).line.text =
      Line.pushText x.length (Opcode.width b)
        (front ++ u :: back.take (Opcode.width b - front.length - 1)) := by
    intro u
    rw [text_line_push (Nat.zero_lt_of_lt h), take_operand h]
  have hcovers : (Segment.code (evm.stepOf x.length b (front ++ u :: back))).line.Covers
      (x.length + 1 + front.length) := by
    rw [covers_line_iff (hold ▸ List.mem_append_right _ List.mem_cons_self),
      Segment.extent, Step.extent, bytes_stepOf_operand h]
    simp only [stepOf, List.length_append, List.length_cons]
    omega
  have hothers := not_covers_of_segments hold hcovers
  rw [Listing.RewrittenAt, lines_disassemble, lines_disassemble, hold, hnew,
    List.map_append, List.map_append, List.map_cons, List.map_cons]
  exact ⟨_, _, _, _, rfl, rfl, (hoffset v).trans (hoffset u).symm, hcovers, hothers,
    Line.rewrittenAt_push (hoffset u) (htext u) (htext v)⟩

theorem rewrittenAt_of_data (hx : evm.Whole x) (hmode : evm.modeBehind x = .data)
    (hop : (evm b).opcode ≠ Opcode.jumpdest)
    (h : front.length < Opcode.width b) (u v : UInt8) (back : List UInt8) :
    Listing.RewrittenAt (x.length + 1 + front.length) u v
      (disassemble (x ++ b :: (front ++ u :: back)))
      (disassemble (x ++ b :: (front ++ v :: back))) := by
  obtain ⟨before, start, head, hstart, hsegs⟩ :=
    hx.segments_of_data lawful_evm hmode hop
  obtain ⟨first, tail, hold, hextent⟩ := hsegs (front ++ u :: back)
  obtain ⟨first', tail', hnew, hextent'⟩ := hsegs (front ++ v :: back)
  rw [evm.segmentsBehind_operand _ _ h v u] at hnew hextent'
  rw [bytes_stepOf_operand h] at hextent hextent'
  have hplace : x.length + 1 + front.length = start + (head ++ b :: front).length := by
    rw [List.length_append, List.length_cons]
    omega
  have hcovers : (Segment.data first tail).line.Covers
      (x.length + 1 + front.length) := by
    rw [covers_line_iff (hold ▸ List.mem_append_right _ List.mem_cons_self), hextent]
    simp only [List.length_append, List.length_cons]
    omega
  have hothers := not_covers_of_segments hold hcovers
  have hrewritten : Line.RewrittenAt (x.length + 1 + front.length) u v
      (Segment.data first tail).line (Segment.data first' tail').line := by
    rw [Segment.line_data, Segment.line_data, hextent, hextent', hplace]
    simpa using Line.rewrittenAt_data start (head ++ b :: front) _ u v
  have hoffset : (Segment.data first' tail').line.offset =
      (Segment.data first tail).line.offset := by
    rw [Segment.offset_line, Segment.offset_line, hextent, hextent']
  rw [Listing.RewrittenAt, lines_disassemble, lines_disassemble, hold, hnew,
    List.map_append, List.map_append, List.map_cons, List.map_cons]
  exact ⟨_, _, _, _, rfl, rfl, hoffset, hcovers, hothers, hrewritten⟩

end Whole

end Table

/-- The code cut at an instruction, and its operand cut at one of its bytes. -/
theorem InOperand.exists_split {code : List UInt8} {i : Nat} (h : InOperand code i)
    (hi : i < code.length) :
    ∃ x b front u back, Table.evm.Whole x ∧ front.length < Opcode.width b ∧
      code = x ++ b :: (front ++ u :: back) ∧ i = x.length + 1 + front.length := by
  obtain ⟨x, b, rest, rfl, hx, hle, hge⟩ := Table.evm.exists_whole_append hi
  -- The instruction itself starts at a boundary, so the byte is behind its opcode.
  have hne : x.length ≠ i := by
    rintro rfl
    exact (hx.boundary_length b rest).not_inOperand h
  have hlt : i - x.length - 1 < rest.length := by
    rw [List.length_append, List.length_cons] at hi
    omega
  change i ≤ x.length + Opcode.width b at hge
  have hfront : (rest.take (i - x.length - 1)).length = i - x.length - 1 :=
    List.length_take_of_le (Nat.le_of_lt hlt)
  refine ⟨x, b, rest.take (i - x.length - 1), rest[i - x.length - 1],
    rest.drop (i - x.length - 1 + 1), hx, by omega, ?_, by omega⟩
  rw [List.getElem_cons_drop, List.take_append_drop]

/-- Another byte in an operand changes the two digits that show it and nothing else of
the listing. -/
theorem operand_byte_inert {code : List UInt8} {i : Nat} (h : InOperand code i)
    (hi : i < code.length) (v : UInt8) :
    Listing.RewrittenAt i code[i] v (disassemble code) (disassemble (code.set i v)) := by
  obtain ⟨x, b, front, u, back, hx, hfront, rfl, rfl⟩ := h.exists_split hi
  have hcut : x ++ b :: (front ++ u :: back) = (x ++ b :: front) ++ u :: back := by
    simp
  have hlength : x.length + 1 + front.length = (x ++ b :: front).length := by
    rw [List.length_append, List.length_cons]
    omega
  have hbyte : (x ++ b :: (front ++ u :: back))[x.length + 1 + front.length] = u := by
    apply Option.some.inj
    rw [← List.getElem?_eq_getElem, hcut, hlength,
      List.getElem?_append_right (Nat.le_refl _), Nat.sub_self]
    rfl
  have hset : (x ++ b :: (front ++ u :: back)).set (x.length + 1 + front.length) v =
      x ++ b :: (front ++ v :: back) := by
    rw [hcut, hlength, List.set_append_right _ _ (Nat.le_refl _)]
    simp
  rw [hbyte, hset]
  rcases Table.evm.code_or_data x b with hcode | ⟨hmode, hop⟩
  · exact hx.rewrittenAt_of_code hcode hfront u v back
  · exact hx.rewrittenAt_of_data hmode hop hfront u v back

/-- A byte in the operand of a push that is data becomes a JUMPDEST. -/
theorem operand_byte_inert_jumpdest :
    InOperand [0x00, 0x61, 0x01, 0x02, 0x03] 3 ∧
      Listing.RewrittenAt 3 0x02 0x5b (disassemble [0x00, 0x61, 0x01, 0x02, 0x03])
        (disassemble [0x00, 0x61, 0x01, 0x5b, 0x03]) := by
  have hboundary : Boundary [0x00, 0x61, 0x01, 0x02, 0x03] 1 :=
    .next (b := 0x00) (.start (by decide)) rfl (by decide)
  have hoperand : InOperand [0x00, 0x61, 0x01, 0x02, 0x03] 3 :=
    ⟨1, 0x61, hboundary, rfl, by decide, by decide⟩
  exact ⟨hoperand, operand_byte_inert hoperand (by decide) 0x5b⟩

end BytecodeListing
