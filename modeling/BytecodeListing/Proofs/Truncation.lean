import BytecodeListing.Proofs.Growth
import BytecodeListing.Proofs.JumpTargets

/-!
# Truncated pushes

A push that declares more operand bytes than the code has left is the last instruction
of the code. Taken for code it has the last line, and this line is the only one with a
mark (`isMarked_iff`); taken for data it has no mark, and its bytes end the last run of
data (`getLast?_segments_of_isData`). Every other push shows as many operand bytes as it
declares (`text_of_isPushAt`); a line is taken for that of a push by its name alone, so that
a push without its operand would be one as well.

Steps are named by their numbers, so that "last", "code" and "data" are said on the code
and not on the lines.
-/

namespace BytecodeListing

/-- The printed line ends in the mark of a truncated push. -/
def IsMarked (line : String) : Prop :=
  "# truncated".toList <:+ line.toList

/-- The step with a number is the last one of a code, and fewer bytes follow its opcode
than it declares. -/
def CutOff (code : List UInt8) (k : Nat) : Prop :=
  (Table.evm.indices code).getLast? = some k ∧
    code.length - (Table.evm.offsetAt code k + 1) < (Table.evm.entryAt code k).width

namespace Opcode

theorem hash_not_mem_assigned : ∀ row ∈ assigned, '#' ∉ row.2.toList := by
  decide +kernel

theorem hash_not_mem_mnemonic (b : UInt8) : '#' ∉ (Table.evm b).mnemonic.toList := by
  cases h : name? b with
  | some name =>
      rw [mnemonic_of_name? h]
      exact hash_not_mem_assigned (b, name) (mem_assigned_of_name? h)
  | none =>
      rw [mnemonic_of_name?_none h, String.toList_ofList, List.mem_append, not_or]
      exact ⟨by decide, (Hex.written_ofByte b).hash_not_mem⟩

theorem push0_of_mem_assigned :
    ∀ row ∈ assigned, width row.1 = 0 → "PUSH".toList <+: row.2.toList → row.2 = "PUSH0" := by
  decide +kernel

/-- The only opcode without an operand that is named like a push is PUSH0. -/
theorem mnemonic_eq_push0 {b : UInt8} (hwidth : width b = 0)
    (h : "PUSH".toList <+: (Table.evm b).mnemonic.toList) : (Table.evm b).mnemonic = "PUSH0" := by
  cases hname : name? b with
  | some name =>
      rw [mnemonic_of_name? hname] at h ⊢
      exact push0_of_mem_assigned (b, name) (mem_assigned_of_name? hname) hwidth h
  | none =>
      rw [mnemonic_of_name?_none hname, String.toList_ofList] at h
      obtain ⟨more, h⟩ := h
      simp [unknownStem] at h

theorem width_le (b : UInt8) : width b ≤ 32 := by
  rw [width]
  split
  · next h =>
      have hle : b.toNat ≤ push32.toNat := h.2
      have hpush0 : push0.toNat = 0x5f := rfl
      have hpush32 : push32.toNat = 0x7f := rfl
      omega
  · omega

end Opcode

namespace Line

variable {o o' n n' : Nat} {x y : List Char}

theorem ofOffset_append_inj (h : Hex.ofOffset o ++ ':' :: x = Hex.ofOffset o' ++ ':' :: y) :
    o = o' ∧ x = y := by
  have hcut := congrArg (cut ':') h
  rw [cut_append (Hex.written_ofOffset o).colon_not_mem,
    cut_append (Hex.written_ofOffset o').colon_not_mem] at hcut
  obtain ⟨hdigits, hbody⟩ := Prod.mk.inj hcut
  have hoffset := congrArg Hex.offset? hdigits
  rw [Hex.offset?_ofOffset, Hex.offset?_ofOffset] at hoffset
  exact ⟨Option.some.inj hoffset, (List.cons.inj hbody).2⟩

/-- The name of a push of `n` bytes. -/
def pushName (n : Nat) : List Char :=
  "PUSH".toList ++ (toString n).toList

theorem pushStem_append (o n : Nat) (x : List Char) :
    pushStem o n ++ x =
      Hex.ofOffset o ++ ':' :: ' ' :: (pushName n ++ ' ' :: '0' :: 'x' :: x) := by
  have hhead : ": PUSH".toList = ':' :: ' ' :: "PUSH".toList := by decide
  have hoperand : " 0x".toList = [' ', '0', 'x'] := by decide
  rw [pushStem, pushName, hhead, hoperand]
  simp

/-- Pushes of different widths have different names. -/
theorem pushName_inj (h : pushName n = pushName n') : n = n' := by
  rw [pushName, pushName, List.append_cancel_left_eq, Nat.toString_eq_repr,
    Nat.toString_eq_repr, Nat.toList_repr, Nat.toList_repr] at h
  have hnumber := congrArg (Nat.ofDigitChars 10 · 0) h
  simpa only [Nat.ofDigitChars_ten_toDigits] using hnumber

/-- The printed line begins with a place and then names a push of `n` bytes, whatever stands
behind the name. -/
def IsPushAt (o n : Nat) (line : String) : Prop :=
  (∃ body, line.toList = Hex.ofOffset o ++ ':' :: ' ' :: body) ∧ word line = pushName n

theorem isMarked_pushText {operand : List UInt8} (h : operand.length < n) :
    IsMarked (String.ofList (pushText o n operand)) := by
  have hmark : truncationMark.toList = ' ' :: "# truncated".toList := by decide +kernel
  refine ⟨pushStem o n ++ Hex.ofBytes operand ++ [' '], ?_⟩
  rw [pushText, if_pos h, hmark]
  simp

theorem not_isMarked_of_hash_not_mem {l : Line} (h : '#' ∉ l.text) :
    ¬ IsMarked l.render := by
  intro hmarked
  rw [IsMarked, toList_render] at hmarked
  exact h (hmarked.subset (by decide))

theorem not_isMarked_data (o : Nat) (bytes : List UInt8) :
    ¬ IsMarked (data o bytes).render := by
  apply not_isMarked_of_hash_not_mem
  have hname : '#' ∉ ": DATA 0x".toList := by decide
  simp only [text, Region.line, List.mem_append, not_or]
  exact ⟨⟨(Hex.written_ofOffset o).hash_not_mem, hname⟩,
    (Hex.written_ofBytes bytes).hash_not_mem⟩

end Line

namespace Table

/-- The line of an instruction is marked exactly if bytes of its operand are missing. -/
theorem isMarked_line_stepOf (pc : Nat) (b : UInt8) (rest : List UInt8) :
    IsMarked (evm.stepOf pc b rest).line.render ↔ rest.length < Opcode.width b := by
  rcases Nat.lt_or_ge rest.length (Opcode.width b) with hlt | hge
  · have htext := text_line_push (Nat.zero_lt_of_lt hlt) pc rest
    rw [List.take_of_length_le (Nat.le_of_lt hlt)] at htext
    rw [Line.render, htext]
    exact iff_of_true (Line.isMarked_pushText hlt) hlt
  · refine iff_of_false (Line.not_isMarked_of_hash_not_mem ?_) (Nat.not_lt.2 hge)
    have hname : '#' ∉ (evm.stepOf pc b rest).insn.mnemonic.toList :=
      Opcode.hash_not_mem_mnemonic b
    have hdigits := (Hex.written_ofBytes (evm.stepOf pc b rest).insn.operand).hash_not_mem
    rw [line_stepOf_of_le hge, Line.text, Instruction.text]
    split
    · simp [hname, (Hex.written_ofOffset pc).hash_not_mem]
    · simp [hname, hdigits, (Hex.written_ofOffset pc).hash_not_mem]

section Numbers

variable {code : List UInt8} {k : Nat}

theorem isMarked_line_stepAt (code : List UInt8) (k : Nat) :
    IsMarked (evm.stepAt code k).line.render ↔
      code.length - (evm.offsetAt code k + 1) < (evm.entryAt code k).width := by
  rw [← stepOf_eq_stepAt, isMarked_line_stepOf, List.length_drop]
  rfl

theorem pairwise_indices (t : Table) (code : List UInt8) :
    (t.indices code).Pairwise (· < ·) :=
  List.Pairwise.filter _ List.pairwise_lt_range

/-- A step that lacks operand bytes is the last one. -/
theorem cutOff_iff (hk : evm.offsetAt code k < code.length) :
    CutOff code k ↔ IsMarked (evm.stepAt code k).line.render := by
  rw [isMarked_line_stepAt, CutOff, and_iff_right_iff_imp]
  intro hshort
  have hmem := (evm.mem_indices code).2 hk
  have hend : evm.offsetAt code (k + 1) = code.length := by
    have htake : (evm.entryAt code k).take = (evm.entryAt code k).width := rfl
    rw [offsetAt_succ, htake]
    omega
  obtain ⟨last, hlast⟩ := Option.ne_none_iff_exists'.1
    (mt List.getLast?_eq_none_iff.1 (List.ne_nil_of_mem hmem))
  obtain ⟨front, hfront⟩ := List.getLast?_eq_some_iff.1 hlast
  have hle : ¬ k < last := by
    intro hlt
    have hmono := evm.offsetAt_mono code (Nat.succ_le_of_lt hlt)
    rw [Nat.succ_eq_add_one, hend] at hmono
    have hin := (evm.mem_indices code).1 (List.mem_of_getLast? hlast)
    omega
  rw [hlast]
  rw [hfront, List.mem_append, List.mem_singleton] at hmem
  rcases hmem with hmem | rfl
  · have hsorted := evm.pairwise_indices code
    rw [hfront, List.pairwise_append] at hsorted
    exact absurd (hsorted.2.2 k hmem last (List.mem_singleton_self last)) hle
  · rfl

theorem getLast?_segments_of_not_isData (hlast : (evm.indices code).getLast? = some k)
    (hdata : ¬ evm.IsData code k) :
    (evm.segments code).getLast? = some (.code (evm.stepAt code k)) := by
  obtain ⟨front, hfront⟩ := List.getLast?_eq_some_iff.1 hlast
  rw [segments, trace_sweep, hfront, List.map_append, List.map_singleton,
    evm.modeAt_of_not_isData code hdata, Segment.ofTrace_append_code, Segment.ofTrace_nil,
    List.getLast?_concat]

/-- The last step is part of the last run of data if it is data. -/
theorem getLast?_segments_of_isData (hlast : (evm.indices code).getLast? = some k)
    (hdata : evm.IsData code k) :
    ∃ first more, (evm.segments code).getLast? = some (.data first more) ∧
      evm.stepAt code k ∈ first :: more := by
  obtain ⟨front, hfront⟩ := List.getLast?_eq_some_iff.1 hlast
  obtain ⟨before, run, -, hsegs⟩ := Segment.ofTrace_append_data
    (front.map fun i => (evm.modeAt code i, evm.stepAt code i))
  obtain ⟨first, more, hsegs, hrun⟩ := hsegs (evm.stepAt code k) []
  refine ⟨first, more, ?_, ?_⟩
  · rw [segments, trace_sweep, hfront, List.map_append, List.map_singleton,
      evm.modeAt_of_isData code hdata, hsegs]
    exact List.getLast?_concat ..
  · rw [hrun]
    simp

/-- The last segment holds all that is left of the code from its start on. -/
theorem extent_getLast? {g : Segment} (h : (evm.segments code).getLast? = some g) :
    g.extent.2 = code.drop g.extent.1 := by
  obtain ⟨front, hfront⟩ := List.getLast?_eq_some_iff.1 h
  have hbytes := lawful_evm.flatMap_segments (fun _ => rfl) code
  have hoffsets := lawful_evm.consecutive_segments code
  rw [hfront, List.map_append, Consecutive.append_iff, List.map_singleton, consecutive_cons,
    Nat.zero_add, List.flatMap_map] at hoffsets
  rw [hfront, List.flatMap_append] at hbytes
  have hdrop := congrArg (List.drop g.extent.1) hbytes
  rwa [hoffsets.2.1, List.drop_left, List.flatMap_singleton, ← hoffsets.2.1] at hdrop

/-- A line is marked exactly if it is the line of a last step that is code and lacks
operand bytes. -/
theorem isMarked_line_iff {g : Segment} (hg : g ∈ evm.segments code) :
    IsMarked g.line.render ↔
      ∃ k, CutOff code k ∧ ¬ evm.IsData code k ∧ g = .code (evm.stepAt code k) := by
  cases g with
  | code s =>
      obtain ⟨k, hk, hdata, rfl⟩ := code_mem_segments_iff.1 hg
      rw [Segment.line, ← cutOff_iff hk]
      constructor
      · intro hcut
        exact ⟨k, hcut, hdata, rfl⟩
      · rintro ⟨k', hcut, -, hstep⟩
        have hk' := (evm.mem_indices code).1 (List.mem_of_getLast? hcut.1)
        rw [cutOff_iff hk'] at hcut
        rwa [cutOff_iff hk, Segment.code.inj hstep]
  | data first more =>
      refine iff_of_false (Line.not_isMarked_data _ _) ?_
      rintro ⟨k, -, -, hstep⟩
      cases hstep

/-- The opcode of a line that names a push has an operand of that width. -/
theorem width_eq_of_mnemonic {b : UInt8} {n : Nat} (hn : 1 ≤ n)
    (h : (evm b).mnemonic.toList = Line.pushName n) : Opcode.width b = n := by
  rcases Nat.eq_zero_or_pos (Opcode.width b) with hzero | hpos
  · have hpush0 := Opcode.mnemonic_eq_push0 hzero (h ▸ List.prefix_append _ _)
    rw [hpush0] at h
    exact absurd (Line.pushName_inj (n := 0) h) (Nat.ne_of_lt hn)
  · rw [Opcode.mnemonic_of_isPush (lawful_evm.isPush_of_width_pos b hpos),
      String.toList_append] at h
    exact Line.pushName_inj h

/-- The line of a push shows its width and the operand bytes that are there. -/
theorem text_of_isPushAt {g : Segment} (hg : g ∈ evm.segments code) {o n : Nat} (hn : 1 ≤ n)
    (h : Line.IsPushAt o n g.line.render) :
    ∃ operand : List UInt8, operand.length ≤ n ∧
      g.line.text = Line.pushText o n operand := by
  obtain ⟨⟨body, hbody⟩, hword⟩ := h
  cases g with
  | data first tail =>
      rw [Segment.line_data, Line.word_render_data] at hword
      simp [Line.pushName] at hword
  | code s =>
      obtain ⟨pc, b, rest, rfl⟩ := exists_stepOf_of_code_mem hg
      rw [Segment.line] at hbody hword ⊢
      rw [word_line_stepOf_evm] at hword
      obtain rfl := width_eq_of_mnemonic hn hword
      have htext := text_line_push hn pc rest
      rw [Line.toList_render, htext, Line.pushText, List.append_assoc, Line.pushStem_append]
        at hbody
      obtain ⟨rfl, -⟩ := Line.ofOffset_append_inj hbody
      exact ⟨_, List.length_take_le _ _, htext⟩

/-- A last step that lacks operand bytes takes all that is left of the code. -/
theorem length_bytes_of_cutOff (h : CutOff code k) :
    (evm.stepAt code k).bytes.length = code.length - evm.offsetAt code k := by
  have hk := (evm.mem_indices code).1 (List.mem_of_getLast? h.1)
  have hshort : code.length - (evm.offsetAt code k + 1) <
      (evm (code.getD (evm.offsetAt code k) 0)).take := h.2
  rw [← stepOf_eq_stepAt, lawful_evm.bytes_stepOf, List.length_cons, List.length_take,
    List.length_drop]
  omega

/-- The operand that is read and the bytes that are cut out of the code for it are the
same at every step. -/
theorem operand_eq_slice {s : Step} (hs : s ∈ evm.sweep code) :
    s.insn.operand = slice code (s.offset + 1) (s.offset + 1 + s.insn.width) ∧
      s.pushed = s.insn.operand := by
  rw [sweep_eq_map_stepAt] at hs
  obtain ⟨i, -, rfl⟩ := List.mem_map.1 hs
  refine ⟨rfl, ?_⟩
  rw [← stepOf_eq_stepAt, lawful_evm.pushed_stepOf]
  rfl

end Numbers

end Table

section Lines

variable {code : List UInt8} {k : Nat}

theorem getLast?_render {g : Segment} (h : (Table.evm.segments code).getLast? = some g) :
    (disassemble code).render.getLast? = some g.line.render := by
  rw [render_eq_map_line, List.getLast?_map, h, Option.map_some]

/-- The line at a place is marked exactly if it is the last one and the last step is code
and lacks operand bytes. -/
theorem isMarked_iff {i : Nat} {line : String}
    (h : (disassemble code).render[i]? = some line) :
    IsMarked line ↔ i + 1 = (disassemble code).render.length ∧
      ∃ k, CutOff code k ∧ ¬ Table.evm.IsData code k := by
  have hline := h
  rw [render_eq_map_line, List.getElem?_map, Option.map_eq_some_iff] at hline
  obtain ⟨g, hg, rfl⟩ := hline
  rw [Table.isMarked_line_iff (List.mem_of_getElem? hg)]
  constructor
  · rintro ⟨k, hcut, hdata, rfl⟩
    refine ⟨?_, k, hcut, hdata⟩
    obtain ⟨hi, -⟩ := List.getElem?_eq_some_iff.1 h
    have hlast := getLast?_render (Table.getLast?_segments_of_not_isData hcut.1 hdata)
    rw [← h, List.getLast?_eq_getElem?] at hlast
    have heq := (List.getElem?_inj hi (nodup_render code)).1 hlast.symm
    omega
  · rintro ⟨hi, k, hcut, hdata⟩
    refine ⟨k, hcut, hdata, ?_⟩
    rw [render_eq_map_line, List.length_map] at hi
    have hlast := Table.getLast?_segments_of_not_isData hcut.1 hdata
    rw [List.getLast?_eq_getElem?, ← hi, Nat.add_sub_cancel, hg] at hlast
    exact Option.some.inj hlast

/-- The last line shows a push that lacks operand bytes with all that is left of the
code. -/
theorem getLast?_render_of_cutOff (hcut : CutOff code k) (hdata : ¬ Table.evm.IsData code k) :
    (disassemble code).render.getLast? = some (String.ofList
      (Line.pushStem (Table.evm.offsetAt code k) (Table.evm.entryAt code k).width ++
        Hex.ofBytes (code.drop (Table.evm.offsetAt code k + 1)) ++ " # truncated".toList)) := by
  have hlt : (code.drop (Table.evm.offsetAt code k + 1)).length <
      (Table.evm.entryAt code k).width := by
    rw [List.length_drop]
    exact hcut.2
  rw [getLast?_render (Table.getLast?_segments_of_not_isData hcut.1 hdata), Segment.line,
    ← Table.stepOf_eq_stepAt, Table.line_stepOf_of_lt hlt]
  rfl

theorem entryAt_of_cutOff (hcut : CutOff code k) :
    1 ≤ (Table.evm.entryAt code k).width ∧ (Table.evm.entryAt code k).width ≤ 32 ∧
      (Table.evm.entryAt code k).mnemonic =
        "PUSH" ++ toString (Table.evm.entryAt code k).width := by
  have hpos : 0 < (Table.evm.entryAt code k).width := Nat.zero_lt_of_lt hcut.2
  exact ⟨hpos, Opcode.width_le _,
    Opcode.mnemonic_of_isPush (Table.lawful_evm.isPush_of_width_pos _ hpos)⟩

theorem getLast?_render_of_isData (hcut : CutOff code k) (hdata : Table.evm.IsData code k) :
    ∃ start ≤ Table.evm.offsetAt code k, (disassemble code).render.getLast? =
      some (Line.data start (code.drop start)).render := by
  obtain ⟨first, more, hlast, hmem⟩ := Table.getLast?_segments_of_isData hcut.1 hdata
  have hbytes := Table.extent_getLast? hlast
  refine ⟨first.offset, ?_, ?_⟩
  · have hk := (Table.evm.mem_indices code).1 (List.mem_of_getLast? hcut.1)
    have hstep := Table.length_bytes_of_cutOff hcut
    -- The run is all of the code from its start on, and the step is part of it.
    have hlength := congrArg List.length hbytes
    obtain ⟨front, tail, hrun⟩ := List.append_of_mem hmem
    simp only [Segment.extent, hrun, List.flatMap_append, List.flatMap_cons,
      List.length_append, List.length_drop, hstep] at hlength
    omega
  · rw [getLast?_render hlast, Segment.line_data, hbytes]
    rfl

end Lines

/-- A push whose operand is cut off by the end of the code is marked exactly where it is
shown as code, as the last line with all the bytes that are left. Every other line with the
name of a push shows as many bytes as the name says. The operand that is read is at every step the one that is
cut out of the code, and in a run of data a push that is cut off leaves no mark and none
of its bytes out. -/
theorem truncation_marked_exactly (code : List UInt8) :
    (∀ i line, (disassemble code).render[i]? = some line →
      (IsMarked line ↔ i + 1 = (disassemble code).render.length ∧
        ∃ k, CutOff code k ∧ ¬ Table.evm.IsData code k)) ∧
    (∀ k, CutOff code k → ¬ Table.evm.IsData code k → ∃ n, 1 ≤ n ∧ n ≤ 32 ∧
      (Table.evm.entryAt code k).mnemonic = "PUSH" ++ toString n ∧
      (disassemble code).render.getLast? = some (String.ofList
        (Line.pushStem (Table.evm.offsetAt code k) n ++
          Hex.ofBytes (code.drop (Table.evm.offsetAt code k + 1)) ++
          " # truncated".toList))) ∧
    (∀ line ∈ (disassemble code).render, ¬ IsMarked line →
      ∀ o n, 1 ≤ n → Line.IsPushAt o n line → ∃ operand : List UInt8,
        operand.length = n ∧
          line = String.ofList (Line.pushStem o n ++ Hex.ofBytes operand)) ∧
    (∀ s ∈ Table.evm.sweep code,
      s.insn.operand = slice code (s.offset + 1) (s.offset + 1 + s.insn.width) ∧
        s.pushed = s.insn.operand) ∧
    (∀ k, CutOff code k → Table.evm.IsData code k →
      (∀ line ∈ (disassemble code).render, ¬ IsMarked line) ∧
        ∃ start ≤ Table.evm.offsetAt code k, (disassemble code).render.getLast? =
          some (Line.data start (code.drop start)).render) := by
  refine ⟨fun i line h => isMarked_iff h, fun k hcut hdata => ?_,
    fun line hline hmark o n hn hpush => ?_, fun s => Table.operand_eq_slice,
    fun k hcut hdata => ⟨fun line hline hmarked => ?_, getLast?_render_of_isData hcut hdata⟩⟩
  · obtain ⟨hpos, hle, hname⟩ := entryAt_of_cutOff hcut
    exact ⟨_, hpos, hle, hname, getLast?_render_of_cutOff hcut hdata⟩
  · rw [render_eq_map_line] at hline
    obtain ⟨g, hg, rfl⟩ := List.mem_map.1 hline
    obtain ⟨operand, hle, htext⟩ := Table.text_of_isPushAt hg hn hpush
    rw [Line.render, htext] at hmark ⊢
    have hlength : ¬ operand.length < n := mt Line.isMarked_pushText hmark
    refine ⟨operand, by omega, ?_⟩
    rw [Line.pushText, if_neg hlength, List.append_nil]
  · obtain ⟨i, hi⟩ := List.getElem?_of_mem hline
    obtain ⟨-, k', hcut', hdata'⟩ := (isMarked_iff hi).1 hmarked
    have hsame := Option.some.inj (hcut.1.symm.trans hcut'.1)
    exact hdata' (hsame ▸ hdata)

example : (disassemble [0x01, 0x63, 0x5b, 0x0b]).render =
    ["0000: ADD", "0001: PUSH4 0x5b0b # truncated"] := by decide +kernel

example : (disassemble [0x00, 0x63, 0x5b, 0x0b]).render =
    ["0000: STOP", "0001: DATA 0x635b0b"] := by decide +kernel

end BytecodeListing
