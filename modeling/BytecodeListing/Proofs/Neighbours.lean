import Mathlib.Data.List.Chain
import BytecodeListing.Proofs.Truncation

/-!
# Neighbouring lines

What may stand beside what in a listing. Data begins behind a terminating instruction
only and is left at a JUMPDEST only, so the kind of a segment is settled by the one in
front of it: `Segment.Follows` says how, and one induction over the steps shows it for
every table (`Segment.isChain_ofTrace`). Two runs of data never meet, because a step of
data goes into the run that is there.

For the EVM this is said on printed lines. A line shows of itself whether it is data
(`Table.render_eq_data_iff`) and which instruction without an operand it is
(`Table.render_eq_plainLine_iff`), and where the next line starts is read off it.
-/

namespace BytecodeListing

namespace Segment

/-- What may stand directly behind a segment: data or a JUMPDEST behind a terminating
instruction, code behind any other, and behind data a JUMPDEST. -/
def Follows : Segment → Segment → Prop
  | code s, code s' => Opcode.isTerminating s.insn.opcode = true →
      s'.insn.opcode = Opcode.jumpdest
  | code s, data _ _ => Opcode.isTerminating s.insn.opcode = true
  | data _ _, code s' => s'.insn.opcode = Opcode.jumpdest
  | data _ _, data _ _ => False

/-- What may stand first where steps are read from a mode on. -/
def Opens (mode : Mode) : Segment → Prop
  | code s => mode = .data → s.insn.opcode = Opcode.jumpdest
  | data _ _ => mode = .data

theorem Opens.follows_code {s : Step} {g : Segment} (h : Opens (.leaving s) g) :
    Follows (code s) g := by
  have hleaving : Mode.leaving s = .data ↔
      Opcode.isTerminating s.insn.opcode = true := by
    rw [Mode.leaving]
    split <;> simp_all
  cases g with
  | code s' => exact fun hterm => h (hleaving.2 hterm)
  | data first more => exact hleaving.1 h

/-- A step of data in front of segments makes them start with data, and what stands
behind the data is what stood there or a JUMPDEST. -/
theorem isChain_extend {s : Step} {segs : List Segment} (h : segs.IsChain Follows)
    (hopens : ∀ g ∈ segs.head?, Opens .data g) :
    (extend s segs).IsChain Follows := by
  cases segs with
  | nil => exact .singleton _
  | cons g segs =>
      cases g with
      | code s' => exact .cons_cons (hopens (code s') rfl rfl) h
      | data first more =>
          rw [extend, List.isChain_cons]
          rw [List.isChain_cons] at h
          -- Whether something follows a run of data does not depend on its steps.
          exact ⟨fun g hg => by cases g <;> exact h.1 _ hg, h.2⟩

/-- The segments of steps that are read from a mode on follow one another. -/
theorem isChain_ofTrace (mode : Mode) (steps : List Step) :
    (ofTrace (mode.trace steps)).IsChain Follows ∧
      ∀ g ∈ (ofTrace (mode.trace steps)).head?, Opens mode g := by
  induction steps generalizing mode with
  | nil => exact ⟨.nil, by simp⟩
  | cons s steps ih =>
      rw [Mode.trace_cons]
      cases hmode : mode.entering s with
      | code =>
          obtain ⟨hchain, hopens⟩ := ih (.leaving s)
          rw [Mode.after_of_entering_code hmode, ofTrace_cons_code]
          refine ⟨List.isChain_cons.2
            ⟨fun g hg => (hopens g hg).follows_code, hchain⟩, ?_⟩
          rintro g ⟨⟩ rfl
          by_contra hop
          rw [Mode.entering_of_opcode_ne _ hop] at hmode
          cases hmode
      | data =>
          obtain ⟨hchain, hopens⟩ := ih .data
          rw [Mode.after_of_entering_data hmode, ofTrace_cons_data]
          refine ⟨isChain_extend hchain hopens, ?_⟩
          rw [extend_eq_lead]
          rintro g ⟨⟩
          exact Mode.eq_data_of_entering hmode

end Segment

/-- The printed line of an instruction that has no operand. -/
def plainLine (o : Nat) (name : String) : String :=
  String.ofList (Hex.ofOffset o ++ ':' :: ' ' :: name.toList)

/-- The printed line is that of a run of data. -/
def IsDataLine (line : String) : Prop :=
  ∃ o bytes, line = (Line.data o bytes).render

namespace Opcode

/-- The mnemonics of the instructions that execution does not simply go on behind. -/
def terminators : List String :=
  ["JUMP", "STOP", "REVERT", "RETURN", "INVALID"]

theorem terminators_eq_map :
    terminators = terminating.map fun b => (Table.evm b).mnemonic := by
  decide +kernel

theorem width_of_isTerminating {b : UInt8} (h : isTerminating b = true) : width b = 0 := by
  have hall : ∀ b ∈ terminating, width b = 0 := by decide +kernel
  exact hall b (by simpa [isTerminating] using h)

theorem mem_terminators_iff {name : String} :
    name ∈ terminators ↔ ∃ b, isTerminating b = true ∧ (Table.evm b).mnemonic = name := by
  simp only [terminators_eq_map, List.mem_map, isTerminating, List.contains_iff_mem]

end Opcode

/-- The printed line is that of a terminating instruction at an offset. -/
def IsTerminatorLine (o : Nat) (line : String) : Prop :=
  ∃ name ∈ Opcode.terminators, line = plainLine o name

theorem jumpdestLine_eq_plainLine (o : Nat) :
    jumpdestLine o = plainLine o (Table.evm Opcode.jumpdest).mnemonic := by
  have hname : (Table.evm Opcode.jumpdest).mnemonic = "JUMPDEST" := by decide +kernel
  have htext : ": JUMPDEST".toList = ':' :: ' ' :: "JUMPDEST".toList := by decide
  rw [jumpdestLine, plainLine, hname, htext]

theorem read?_plainLine {b : UInt8} (h : Opcode.width b = 0) (o : Nat) :
    Line.read? (plainLine o (Table.evm b).mnemonic) = some (o, [b]) :=
  Line.read?_of_readBody? (Line.readBody?_plain h) o

theorem read?_data (o : Nat) (bytes : List UInt8) :
    Line.read? (Line.data o bytes).render = some (o, bytes) := by
  rw [Line.render_data]
  exact Line.read?_of_readBody? (Line.readBody?_data bytes) o

/-- The line of data at an offset is not the line of an instruction that has no
operand. -/
theorem render_data_ne_plainLine (o o' : Nat) (bytes : List UInt8) (b : UInt8) :
    (Line.data o bytes).render ≠ plainLine o' (Table.evm b).mnemonic := by
  intro h
  have hword := congrArg Line.word h
  rw [Line.word_render_data, plainLine, Line.word_ofList,
    cut_of_not_mem (Opcode.space_not_mem_mnemonic b)] at hword
  exact Opcode.mnemonic_ne_data b hword.symm

namespace Table

theorem isChain_segments (t : Table) (code : List UInt8) :
    (t.segments code).IsChain Segment.Follows :=
  (Segment.isChain_ofTrace .code (t.sweep code)).1

theorem opens_of_mem_head?_segments (t : Table) (code : List UInt8) :
    ∀ g ∈ (t.segments code).head?, Segment.Opens .code g :=
  (Segment.isChain_ofTrace .code (t.sweep code)).2

/-- An instruction names itself in its line, and its name is not the word of data. -/
theorem not_isDataLine_stepOf (pc : Nat) (b : UInt8) (rest : List UInt8) :
    ¬ IsDataLine (evm.stepOf pc b rest).line.render := by
  rintro ⟨o, bytes, h⟩
  have hword := congrArg Line.word h
  rw [word_line_stepOf_evm, Line.word_render_data] at hword
  exact Opcode.mnemonic_ne_data b hword

section Lines

variable {code : List UInt8} {g : Segment}

/-- A line is printed as data exactly if it is data. -/
theorem render_eq_data_iff (hg : g ∈ evm.segments code) {o : Nat} {bytes : List UInt8} :
    g.line.render = (Line.data o bytes).render ↔
      ∃ first more, g = .data first more ∧ g.extent = (o, bytes) := by
  constructor
  · intro h
    have hread := read?_line_of_mem_segments hg
    rw [h, read?_data] at hread
    cases g with
    | code s =>
        obtain ⟨pc, b, rest, rfl⟩ := exists_stepOf_of_code_mem hg
        exact absurd ⟨o, bytes, h⟩ (not_isDataLine_stepOf pc b rest)
    | data first more => exact ⟨first, more, rfl, (Option.some.inj hread).symm⟩
  · rintro ⟨first, more, rfl, hextent⟩
    rw [Segment.line_data, hextent]

theorem isDataLine_iff (hg : g ∈ evm.segments code) :
    IsDataLine g.line.render ↔ ∃ first more, g = .data first more := by
  constructor
  · rintro ⟨o, bytes, h⟩
    obtain ⟨first, more, heq, -⟩ := (render_eq_data_iff hg).1 h
    exact ⟨first, more, heq⟩
  · rintro ⟨first, more, rfl⟩
    exact ⟨_, _, rfl⟩

/-- A line is printed as an instruction that has no operand exactly if it is one. -/
theorem render_eq_plainLine_iff (hg : g ∈ evm.segments code) {b : UInt8}
    (hb : Opcode.width b = 0) {o : Nat} :
    g.line.render = plainLine o (evm b).mnemonic ↔
      ∃ s, g = .code s ∧ s.offset = o ∧ s.insn.opcode = b := by
  constructor
  · intro h
    have hread := read?_line_of_mem_segments hg
    rw [h, read?_plainLine hb] at hread
    obtain ⟨hoffset, hbytes⟩ := Prod.mk.inj (Option.some.inj hread)
    cases g with
    | code s => exact ⟨s, rfl, hoffset.symm, (List.cons.inj hbytes).1.symm⟩
    | data first more => exact absurd h (render_data_ne_plainLine _ o _ b)
  · rintro ⟨s, rfl, rfl, rfl⟩
    obtain ⟨pc, b, rest, rfl⟩ := exists_stepOf_of_code_mem hg
    exact congrArg String.ofList (text_line_plain hb pc rest)

theorem isTerminatorLine_iff (hg : g ∈ evm.segments code) {o : Nat} :
    IsTerminatorLine o g.line.render ↔
      ∃ s, g = .code s ∧ s.offset = o ∧ Opcode.isTerminating s.insn.opcode = true := by
  constructor
  · rintro ⟨name, hname, h⟩
    obtain ⟨b, hterm, rfl⟩ := Opcode.mem_terminators_iff.1 hname
    obtain ⟨s, rfl, rfl, rfl⟩ :=
      (render_eq_plainLine_iff hg (Opcode.width_of_isTerminating hterm)).1 h
    exact ⟨s, rfl, rfl, hterm⟩
  · rintro ⟨s, rfl, rfl, hterm⟩
    exact ⟨_, Opcode.mem_terminators_iff.2 ⟨_, hterm, rfl⟩,
      (render_eq_plainLine_iff hg (Opcode.width_of_isTerminating hterm)).2 ⟨s, rfl, rfl, rfl⟩⟩

/-- Behind a segment the listing ends, or a segment that may follow it starts where its
bytes end. -/
theorem exists_next {i : Nat} (hi : (evm.segments code)[i]? = some g) :
    i + 1 = (evm.segments code).length ∨
      ∃ g', (evm.segments code)[i + 1]? = some g' ∧ g.Follows g' ∧
        g'.extent.1 = g.extent.1 + g.extent.2.length := by
  obtain ⟨hlt, hget⟩ := List.getElem?_eq_some_iff.1 hi
  rcases Nat.lt_or_ge (i + 1) (evm.segments code).length with hnext | hend
  · have hfollows := (evm.isChain_segments code).getElem i hnext
    rw [hget] at hfollows
    have hextent : ((evm.segments code).map Segment.extent)[i]? = some g.extent := by
      rw [List.getElem?_map, hi, Option.map_some]
    have hstart := (lawful_evm.consecutive_segments code).fst_next hextent
    rw [List.getElem?_map, List.getElem?_eq_getElem hnext] at hstart
    exact .inr ⟨_, List.getElem?_eq_getElem hnext, hfollows, hstart⟩
  · exact .inl (by omega)

theorem length_bytes_of_isTerminating {s : Step} (hs : Segment.code s ∈ evm.segments code)
    (hterm : Opcode.isTerminating s.insn.opcode = true) : s.bytes.length = 1 := by
  obtain ⟨pc, b, rest, rfl⟩ := exists_stepOf_of_code_mem hs
  have hwidth : (evm b).take = 0 := Opcode.width_of_isTerminating hterm
  rw [lawful_evm.bytes_stepOf, hwidth]
  rfl

theorem length_bytes_of_not_isMarked {s : Step} (hs : Segment.code s ∈ evm.segments code)
    (hmark : ¬ IsMarked (Segment.code s).line.render) :
    s.bytes.length = 1 + Opcode.width s.insn.opcode := by
  obtain ⟨pc, b, rest, rfl⟩ := exists_stepOf_of_code_mem hs
  rw [Segment.line, isMarked_line_stepOf, Nat.not_lt] at hmark
  have htake : (rest.take (evm b).take).length = Opcode.width b :=
    List.length_take_of_le hmark
  rw [lawful_evm.bytes_stepOf, List.length_cons, htake, Nat.add_comm]
  rfl

/-- In front of data stands the terminating instruction that it begins behind. -/
theorem exists_before_data {i : Nat} {first : Step} {more : List Step}
    (hi : (evm.segments code)[i]? = some (.data first more)) :
    ∃ j s, i = j + 1 ∧ (evm.segments code)[j]? = some (.code s) ∧
      Opcode.isTerminating s.insn.opcode = true ∧ first.offset = s.offset + 1 := by
  cases i with
  | zero =>
      have hopens := evm.opens_of_mem_head?_segments code (.data first more)
      rw [List.head?_eq_getElem?, hi] at hopens
      cases hopens rfl
  | succ j =>
      obtain ⟨hlt, -⟩ := List.getElem?_eq_some_iff.1 hi
      have hj := List.getElem?_eq_getElem (Nat.lt_of_succ_lt hlt)
      obtain hend | ⟨g', hg', hfollows, hstart⟩ := exists_next hj
      · omega
      · obtain rfl := Option.some.inj (hi.symm.trans hg')
        cases hg : (evm.segments code)[j] with
        | data first' more' =>
            rw [hg] at hfollows
            exact hfollows.elim
        | code s =>
            rw [hg] at hj hfollows hstart
            have hlength := length_bytes_of_isTerminating (List.mem_of_getElem? hj) hfollows
            refine ⟨j, s, rfl, hj, hfollows, hstart.trans ?_⟩
            rw [Segment.extent, Step.extent, hlength]

end Lines

end Table

section Printed

variable {code : List UInt8} {i : Nat}

theorem getElem?_render_eq_some_iff {line : String} :
    (disassemble code).render[i]? = some line ↔
      ∃ g, (Table.evm.segments code)[i]? = some g ∧ g.line.render = line := by
  rw [render_eq_map_line, List.getElem?_map, Option.map_eq_some_iff]

theorem getElem?_render {g : Segment} (h : (Table.evm.segments code)[i]? = some g) :
    (disassemble code).render[i]? = some g.line.render :=
  getElem?_render_eq_some_iff.2 ⟨g, h, rfl⟩

theorem length_render (code : List UInt8) :
    (disassemble code).render.length = (Table.evm.segments code).length := by
  rw [render_eq_map_line, List.length_map]

theorem getElem?_render_jumpdest {s : Step}
    (h : (Table.evm.segments code)[i]? = some (.code s))
    (hop : s.insn.opcode = Opcode.jumpdest) :
    (disassemble code).render[i]? = some (jumpdestLine s.offset) := by
  rw [getElem?_render h, jumpdestLine_eq_plainLine,
    (Table.render_eq_plainLine_iff (List.mem_of_getElem? h) rfl).2 ⟨s, rfl, rfl, hop⟩]

/-- Data has a payload, begins behind a terminating instruction and ends at a JUMPDEST or
with the code. -/
theorem render_beside_data {o : Nat} {bytes : List UInt8}
    (h : (disassemble code).render[i]? = some (Line.data o bytes).render) :
    bytes ≠ [] ∧
    (∃ j p line, i = j + 1 ∧ o = p + 1 ∧ (disassemble code).render[j]? = some line ∧
      IsTerminatorLine p line) ∧
    (i + 1 = (disassemble code).render.length ∨
      (disassemble code).render[i + 1]? = some (jumpdestLine (o + bytes.length))) := by
  obtain ⟨g, hi, hline⟩ := getElem?_render_eq_some_iff.1 h
  obtain ⟨first, more, rfl, hextent⟩ :=
    (Table.render_eq_data_iff (List.mem_of_getElem? hi)).1 hline
  obtain ⟨rfl, rfl⟩ := Prod.mk.inj hextent
  obtain ⟨j, s, rfl, hj, hterm, hstart⟩ := Table.exists_before_data hi
  refine ⟨List.cons_ne_nil _ _, ⟨j, s.offset, _, rfl, hstart, getElem?_render hj,
    (Table.isTerminatorLine_iff (List.mem_of_getElem? hj)).2 ⟨s, rfl, rfl, hterm⟩⟩, ?_⟩
  rw [length_render]
  refine (Table.exists_next hi).imp_right ?_
  rintro ⟨g', hg', hfollows, hnext⟩
  cases g' with
  | data first' more' => exact hfollows.elim
  | code s' =>
      rw [getElem?_render_jumpdest hg' hfollows]
      exact congrArg (some <| jumpdestLine ·) hnext

/-- Behind a terminating instruction stands nothing, a JUMPDEST or data. -/
theorem render_behind_terminator {o : Nat} {line : String}
    (h : (disassemble code).render[i]? = some line) (hterm : IsTerminatorLine o line) :
    i + 1 = (disassemble code).render.length ∨
      (disassemble code).render[i + 1]? = some (jumpdestLine (o + 1)) ∨
      ∃ bytes, (disassemble code).render[i + 1]? = some (Line.data (o + 1) bytes).render := by
  obtain ⟨g, hi, rfl⟩ := getElem?_render_eq_some_iff.1 h
  obtain ⟨s, rfl, rfl, hop⟩ :=
    (Table.isTerminatorLine_iff (List.mem_of_getElem? hi)).1 hterm
  have hlength := Table.length_bytes_of_isTerminating (List.mem_of_getElem? hi) hop
  rw [length_render]
  refine (Table.exists_next hi).imp_right ?_
  rintro ⟨g', hg', hfollows, hnext⟩
  have hnext : g'.extent.1 = s.offset + 1 := hlength ▸ hnext
  cases g' with
  | data first more =>
      refine .inr ⟨(Segment.data first more).extent.2, ?_⟩
      rw [getElem?_render hg', Segment.line_data, hnext]
  | code s' =>
      rw [getElem?_render_jumpdest hg' (hfollows hop)]
      exact .inl (congrArg (some <| jumpdestLine ·) hnext)

/-- An instruction that is complete shows its operand, and if it is not a terminating one,
behind it stands nothing or the next instruction. -/
theorem render_behind_complete {line : String}
    (h : (disassemble code).render[i]? = some line) (hdata : ¬ IsDataLine line)
    (hmark : ¬ IsMarked line) :
    ∃ o b operand, Line.read? line = some (o, b :: operand) ∧
      operand.length = Opcode.width b ∧
      (¬ IsTerminatorLine o line → i + 1 = (disassemble code).render.length ∨
        ∃ line' bytes, (disassemble code).render[i + 1]? = some line' ∧ ¬ IsDataLine line' ∧
          Line.read? line' = some (o + 1 + Opcode.width b, bytes)) := by
  obtain ⟨g, hi, rfl⟩ := getElem?_render_eq_some_iff.1 h
  have hg := List.mem_of_getElem? hi
  cases g with
  | data first more => exact absurd ((Table.isDataLine_iff hg).2 ⟨first, more, rfl⟩) hdata
  | code s =>
      have hlength := Table.length_bytes_of_not_isMarked hg hmark
      rw [Step.bytes, List.length_cons, Nat.add_comm, Nat.add_left_cancel_iff] at hlength
      refine ⟨s.offset, s.insn.opcode, s.pushed, Table.read?_line_of_mem_segments hg, hlength,
        fun hterm => ?_⟩
      have hgoes : ¬ Opcode.isTerminating s.insn.opcode = true := fun hop =>
        hterm ((Table.isTerminatorLine_iff hg).2 ⟨s, rfl, rfl, hop⟩)
      rw [length_render]
      refine (Table.exists_next hi).imp_right ?_
      rintro ⟨g', hg', hfollows, hnext⟩
      have hmem := List.mem_of_getElem? hg'
      refine ⟨_, g'.extent.2, getElem?_render hg', ?_, ?_⟩
      · intro hdata'
        obtain ⟨first, more, rfl⟩ := (Table.isDataLine_iff hmem).1 hdata'
        exact hgoes hfollows
      · rw [Table.read?_line_of_mem_segments hmem, ← hlength, Nat.add_right_comm]
        exact congrArg some (Prod.ext hnext rfl)

end Printed

/-- How the lines of a listing stand beside one another. Data has a payload, stands
directly behind a terminating instruction, and ends at a JUMPDEST or with the code.
Directly behind a terminating instruction there is nothing, data or a JUMPDEST, and behind
any other instruction with all of its operand there is nothing or the next instruction. -/
theorem disassemble_neighbours (code : List UInt8) :
    let lines := (disassemble code).render
    (∀ line, lines.head? = some line → ¬ IsDataLine line) ∧
    (∀ i line line', lines[i]? = some line → lines[i + 1]? = some line' →
      IsDataLine line → ¬ IsDataLine line') ∧
    (∀ i o bytes, lines[i]? = some (Line.data o bytes).render →
      bytes ≠ [] ∧
      (∃ j p line, i = j + 1 ∧ o = p + 1 ∧ lines[j]? = some line ∧
        IsTerminatorLine p line) ∧
      (i + 1 = lines.length ∨ lines[i + 1]? = some (jumpdestLine (o + bytes.length)))) ∧
    (∀ i o line, lines[i]? = some line → IsTerminatorLine o line →
      i + 1 = lines.length ∨ lines[i + 1]? = some (jumpdestLine (o + 1)) ∨
        ∃ bytes, lines[i + 1]? = some (Line.data (o + 1) bytes).render) ∧
    (∀ i line, lines[i]? = some line → ¬ IsDataLine line → ¬ IsMarked line →
      ∃ o b operand, Line.read? line = some (o, b :: operand) ∧
        operand.length = Opcode.width b ∧
        (¬ IsTerminatorLine o line → i + 1 = lines.length ∨
          ∃ line' bytes, lines[i + 1]? = some line' ∧ ¬ IsDataLine line' ∧
            Line.read? line' = some (o + 1 + Opcode.width b, bytes))) := by
  refine ⟨?_, ?_, fun i o bytes => render_beside_data,
    fun i o line => render_behind_terminator, fun i line => render_behind_complete⟩
  · rintro line h ⟨o, bytes, rfl⟩
    rw [List.head?_eq_getElem?] at h
    obtain ⟨-, ⟨j, _, _, hj, -⟩, -⟩ := render_beside_data h
    exact Nat.succ_ne_zero j hj.symm
  · rintro i line line' h h' hdata ⟨o, bytes, rfl⟩
    obtain ⟨-, ⟨j, p, before, hj, -, hbefore, hterm⟩, -⟩ := render_beside_data h'
    obtain rfl := Nat.succ.inj hj
    obtain rfl := Option.some.inj (h.symm.trans hbefore)
    obtain ⟨g, hi, rfl⟩ := getElem?_render_eq_some_iff.1 h
    have hg := List.mem_of_getElem? hi
    obtain ⟨first, more, rfl⟩ := (Table.isDataLine_iff hg).1 hdata
    obtain ⟨s, hs, -⟩ := (Table.isTerminatorLine_iff hg).1 hterm
    cases hs

/-- A push in data hides a JUMPDEST byte, and the JUMPDEST behind it opens code again. -/
example : (disassemble [0x56, 0x61, 0x5b, 0x5b, 0x5b, 0x00, 0x5b, 0xfe, 0x01]).render =
    ["0000: JUMP", "0001: DATA 0x615b5b", "0004: JUMPDEST", "0005: STOP", "0006: JUMPDEST",
      "0007: INVALID", "0008: DATA 0x01"] := by decide +kernel

end BytecodeListing
