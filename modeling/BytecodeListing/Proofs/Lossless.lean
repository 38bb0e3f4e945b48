import Mathlib.Data.List.TakeWhile
import BytecodeListing.Proofs.Mnemonics
import BytecodeListing.Proofs.Segments

/-!
# Listings lose nothing

`Line.read?` reads a printed line on its own: the offset in front of the colon, then
the bytes of what follows it. A mnemonic stands for its byte, an operand for its
bytes, a run of data for its payload. The reader checks the operand against the
width of the mnemonic, so that the mark of a truncated push stands exactly where
operand bytes are missing.

Every line of a listing reads as the extent of its segment
(`read?_line_of_mem_segments`). The extents of the segments follow one another and
make up the code, so the code is what the lines read as, one behind the other.
-/

namespace BytecodeListing

/-- The text in front of the first separator, and the text from it on. -/
def cut (separator : Char) (cs : List Char) : List Char × List Char :=
  (cs.takeWhile (· ≠ separator), cs.dropWhile (· ≠ separator))

theorem all_ne_of_not_mem {separator : Char} {a : List Char}
    (h : separator ∉ a) : ∀ c ∈ a, decide (c ≠ separator) = true := by
  intro c hc
  rw [decide_eq_true_eq]
  rintro rfl
  exact h hc

theorem cut_append {separator : Char} {a : List Char} (h : separator ∉ a)
    (b : List Char) :
    cut separator (a ++ separator :: b) = (a, separator :: b) := by
  have hall := all_ne_of_not_mem h
  rw [cut, List.takeWhile_append_of_pos hall, List.dropWhile_append_of_pos hall]
  simp

theorem cut_of_not_mem {separator : Char} {a : List Char}
    (h : separator ∉ a) : cut separator a = (a, []) := by
  have hall := all_ne_of_not_mem h
  rw [cut, List.takeWhile_eq_self_iff.2 hall, List.dropWhile_eq_nil_iff.2 hall]

namespace Line

/-- The mark behind an operand of which bytes are missing. -/
def truncationMark : String := " # truncated"

/-- The bytes of an instruction without an operand. -/
def readPlain? (name : List Char) : Option (List UInt8) :=
  (Opcode.byte? (String.ofList name)).bind fun b =>
    if Opcode.width b = 0 then some [b] else none

/-- The bytes of a push with its operand. The mark stands exactly where the operand
is shorter than the push declares. -/
def readPush? (name : List Char) (operand : List UInt8) (mark : List Char) :
    Option (List UInt8) :=
  (Opcode.byte? (String.ofList name)).bind fun b =>
    if operand.length < Opcode.width b ∧ mark = truncationMark.toList ∨
        0 < operand.length ∧ operand.length = Opcode.width b ∧ mark = [] then
      some (b :: operand)
    else
      none

/-- The bytes that the text behind an offset stands for. -/
def readBody? (body : List Char) : Option (List UInt8) :=
  match cut ' ' body with
  | (name, []) => readPlain? name
  | (name, _ :: '0' :: 'x' :: text) =>
      (Hex.bytes? (cut ' ' text).1).bind fun bytes =>
        if name = "DATA".toList then
          if (cut ' ' text).2 = [] then some bytes else none
        else
          readPush? name bytes (cut ' ' text).2
  | _ => none

/-- Reads a printed line: its offset and its bytes. -/
def read? (line : String) : Option (Nat × List UInt8) :=
  match cut ':' line.toList with
  | (digits, _ :: ' ' :: body) =>
      (Hex.offset? digits).bind fun offset =>
        (readBody? body).map fun bytes => (offset, bytes)
  | _ => none

/-- The word behind the place in a printed line: the name of an instruction, or that of
data. -/
def word (line : String) : List Char :=
  (cut ' ' ((cut ':' line.toList).2.drop 2)).1

theorem word_ofList (offset : Nat) (body : List Char) :
    word (String.ofList (Hex.ofOffset offset ++ ':' :: ' ' :: body)) = (cut ' ' body).1 := by
  rw [word, String.toList_ofList, cut_append (Hex.written_ofOffset offset).colon_not_mem]
  rfl

theorem read?_of_readBody? {body : List Char} {bytes : List UInt8}
    (h : readBody? body = some bytes) (offset : Nat) :
    read? (String.ofList (Hex.ofOffset offset ++ ':' :: ' ' :: body)) =
      some (offset, bytes) := by
  have hcut := cut_append (Hex.written_ofOffset offset).colon_not_mem
    (' ' :: body)
  rw [read?, String.toList_ofList, hcut]
  simp only [Hex.offset?_ofOffset, h, Option.bind_some, Option.map_some]

theorem readBody?_data (bytes : List UInt8) :
    readBody? ("DATA 0x".toList ++ Hex.ofBytes bytes) = some bytes := by
  have hcut : cut ' ' ("DATA 0x".toList ++ Hex.ofBytes bytes) =
      ("DATA".toList, ' ' :: '0' :: 'x' :: Hex.ofBytes bytes) :=
    cut_append (a := "DATA".toList) (by decide) _
  rw [readBody?, hcut]
  simp only [cut_of_not_mem (Hex.written_ofBytes bytes).space_not_mem,
    Hex.bytes?_ofBytes, Option.bind_some, if_true]

theorem readBody?_plain {b : UInt8} (h : Opcode.width b = 0) :
    readBody? (Table.evm b).mnemonic.toList = some [b] := by
  rw [readBody?, cut_of_not_mem (Opcode.space_not_mem_mnemonic b)]
  simp only [readPlain?, String.ofList_toList, Opcode.byte?_mnemonic,
    Option.bind_some, h, if_true]

theorem readBody?_push {b : UInt8} {operand : List UInt8} {mark : List Char}
    (h : operand.length < Opcode.width b ∧ mark = truncationMark.toList ∨
      0 < operand.length ∧ operand.length = Opcode.width b ∧ mark = []) :
    readBody? ((Table.evm b).mnemonic.toList ++
        ' ' :: '0' :: 'x' :: (Hex.ofBytes operand ++ mark)) =
      some (b :: operand) := by
  have hspace := (Hex.written_ofBytes operand).space_not_mem
  have hcut : cut ' ' (Hex.ofBytes operand ++ mark) =
      (Hex.ofBytes operand, mark) := by
    rcases h with ⟨-, rfl⟩ | ⟨-, -, rfl⟩
    · exact cut_append hspace _
    · rw [List.append_nil, cut_of_not_mem hspace]
  rw [readBody?, cut_append (Opcode.space_not_mem_mnemonic b)]
  simp only [hcut, Hex.bytes?_ofBytes, Option.bind_some,
    if_neg (Opcode.mnemonic_ne_data b), readPush?, String.ofList_toList,
    Opcode.byte?_mnemonic, if_pos h]

theorem render_code (offset : Nat) (insn : Instruction) :
    (code offset insn).render =
      String.ofList (Hex.ofOffset offset ++ ':' :: ' ' :: insn.text) := by
  simp [render, text]

theorem render_truncated (offset width : Nat) (present : List UInt8) :
    (truncated offset width present).render =
      String.ofList (Hex.ofOffset offset ++ ':' :: ' ' ::
        (("PUSH".toList ++ (toString width).toList) ++
          ' ' :: '0' :: 'x' :: (Hex.ofBytes present ++ truncationMark.toList))) := by
  have hhead : ": PUSH".toList = ':' :: ' ' :: "PUSH".toList := by decide
  have hmark : " 0x".toList = [' ', '0', 'x'] := by decide
  simp only [render, text, hhead, hmark, truncationMark, List.append_assoc,
    List.cons_append, List.nil_append]

theorem render_data (offset : Nat) (bytes : List UInt8) :
    (data offset bytes).render =
      String.ofList (Hex.ofOffset offset ++ ':' :: ' ' ::
        ("DATA 0x".toList ++ Hex.ofBytes bytes)) := by
  simp [render, text, Region.line]

theorem word_render_data (offset : Nat) (bytes : List UInt8) :
    word (data offset bytes).render = "DATA".toList := by
  rw [render_data, word_ofList]
  exact congrArg Prod.fst (cut_append (a := "DATA".toList) (by decide) _)

end Line

namespace Table

/-- The line of a step of the EVM names its opcode. -/
theorem word_line_stepOf_evm (pc : Nat) (b : UInt8) (rest : List UInt8) :
    Line.word (evm.stepOf pc b rest).line.render = (evm b).mnemonic.toList := by
  have hspace := Opcode.space_not_mem_mnemonic b
  have hmnemonic : (evm.stepOf pc b rest).insn.mnemonic = (evm b).mnemonic := rfl
  rw [Step.line]
  split
  · next h =>
      have hname : (evm b).mnemonic.toList =
          "PUSH".toList ++ (toString (Opcode.width b)).toList := by
        rw [Opcode.mnemonic_of_isPush h.1, String.toList_append]
      rw [Line.render_truncated, Line.word_ofList]
      rw [hname] at hspace ⊢
      exact congrArg Prod.fst (cut_append hspace _)
  · rw [Line.render_code, Line.word_ofList, Instruction.text, hmnemonic]
    split
    · rw [cut_of_not_mem hspace]
    · rw [List.append_assoc]
      exact congrArg Prod.fst (cut_append hspace _)

/-- The line of a step of the EVM reads as the step's place and bytes. -/
theorem read?_line_stepOf_evm (pc : Nat) (b : UInt8) (rest : List UInt8) :
    Line.read? (evm.stepOf pc b rest).line.render =
      some (evm.stepOf pc b rest).extent := by
  have hpushed : (evm.stepOf pc b rest).pushed = rest.take (Opcode.width b) :=
    lawful_evm.pushed_stepOf pc b rest
  have hoperand : (evm.stepOf pc b rest).insn.operand =
      rest.take (Opcode.width b) := rfl
  have hmnemonic : (evm.stepOf pc b rest).insn.mnemonic = (evm b).mnemonic := rfl
  have hextent : (evm.stepOf pc b rest).extent =
      (pc, b :: rest.take (Opcode.width b)) := by
    rw [Step.extent, lawful_evm.bytes_stepOf]
    rfl
  rw [hextent, Step.line, hpushed]
  split
  · next h =>
      obtain ⟨hpush, hshort⟩ := h
      have hname : (evm b).mnemonic.toList =
          "PUSH".toList ++ (toString (Opcode.width b)).toList := by
        rw [Opcode.mnemonic_of_isPush hpush, String.toList_append]
      have hread := Line.readBody?_push (b := b)
        (Or.inl ⟨hshort, rfl⟩)
      rw [Line.render_truncated]
      rw [hname] at hread
      exact Line.read?_of_readBody? hread pc
  · next h =>
      rw [Line.render_code]
      apply Line.read?_of_readBody?
      rcases Nat.eq_zero_or_pos (Opcode.width b) with hzero | hpos
      · rw [hzero, List.take_zero] at hoperand ⊢
        rw [Instruction.text_of_operand_nil hoperand]
        exact Line.readBody?_plain hzero
      · have hfull : (rest.take (Opcode.width b)).length = Opcode.width b := by
          have hpush := lawful_evm.isPush_of_width_pos b hpos
          have hle := List.length_take_le (Opcode.width b) rest
          by_contra hne
          exact h ⟨hpush, Nat.lt_of_le_of_ne hle hne⟩
        have hne : (evm.stepOf pc b rest).insn.operand ≠ [] := by
          rw [hoperand, ← List.length_pos_iff, hfull]
          exact hpos
        have hread := Line.readBody?_push (b := b)
          (Or.inr ⟨by omega, hfull, rfl⟩)
        rw [Instruction.text_of_operand_ne_nil hne, hoperand, hmnemonic]
        simpa using hread

theorem exists_stepOf_of_code_mem {code : List UInt8} {s : Step}
    (h : Segment.code s ∈ evm.segments code) : ∃ pc b rest, s = evm.stepOf pc b rest := by
  have hs := mem_sweep_of_mem_steps h (List.mem_singleton_self s)
  rw [sweep_eq_steps] at hs
  exact evm.exists_stepOf_of_mem_steps hs

theorem read?_line_of_mem_segments {code : List UInt8} {g : Segment}
    (h : g ∈ evm.segments code) :
    Line.read? g.line.render = some g.extent := by
  cases g with
  | code s =>
      obtain ⟨pc, b, rest, rfl⟩ := exists_stepOf_of_code_mem h
      exact read?_line_stepOf_evm pc b rest
  | data first more =>
      rw [Segment.line, Line.render_data]
      exact Line.read?_of_readBody? (Line.readBody?_data _) _

end Table

/-- A listing is printed segment by segment. -/
theorem render_eq_map_line (code : List UInt8) :
    (disassemble code).render = (Table.evm.segments code).map fun g => g.line.render := by
  rw [Listing.render, lines_disassemble, List.map_map]
  rfl

theorem map_read?_render (code : List UInt8) :
    (disassemble code).render.map Line.read? =
      ((Table.evm.segments code).map Segment.extent).map some := by
  rw [render_eq_map_line, List.map_map, List.map_map]
  apply List.map_congr_left
  intro g hg
  exact Table.read?_line_of_mem_segments hg

theorem flatMap_extent_evm (code : List UInt8) :
    ((Table.evm.segments code).map Segment.extent).flatMap Prod.snd = code := by
  rw [List.flatMap_map]
  exact Table.lawful_evm.flatMap_segments (fun _ => rfl) code

theorem pairwise_fst_extent_evm (code : List UInt8) :
    (((Table.evm.segments code).map Segment.extent).map Prod.fst).Pairwise
      (· < ·) := by
  rw [List.pairwise_map, List.pairwise_map]
  apply (Table.lawful_evm.pairwise_segments code).imp
  intro g g' h
  have := g.length_extent_pos
  omega

/-- Reading the lines of a listing gives the code back, every line at the place
where the lines in front of it end. -/
theorem disassemble_lossless :
    (∀ code : List UInt8, ∃ extents : List (Nat × List UInt8),
      (disassemble code).render.map Line.read? = extents.map some ∧
        extents.flatMap Prod.snd = code ∧
        (∀ i : Fin extents.length,
          (extents.get i).1 = ((extents.take i).flatMap Prod.snd).length) ∧
        (extents.map Prod.fst).Pairwise (· < ·)) ∧
      Function.Injective fun code => (disassemble code).render := by
  constructor
  · intro code
    refine ⟨(Table.evm.segments code).map Segment.extent, map_read?_render code,
      flatMap_extent_evm code, ?_, pairwise_fst_extent_evm code⟩
    intro i
    have h := (Table.lawful_evm.consecutive_segments code).fst_get i
    rwa [Nat.zero_add] at h
  · intro code code' h
    have hread := congrArg (List.map Line.read?) h
    simp only [map_read?_render] at hread
    have hextents := (List.map_inj_right fun _ _ => Option.some.inj).1 hread
    rw [← flatMap_extent_evm code, hextents, flatMap_extent_evm]

example : Line.read? "10000: PUSH2 0xff # truncated" =
    some (0x10000, [0x61, 0xff]) := by decide +kernel

end BytecodeListing
