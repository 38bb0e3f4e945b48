import Mathlib.Data.List.SplitBy
import BytecodeListing.Proofs.Offsets

/-!
# The listing as it is declared

`declaredLines t code` says what a listing is without a pass over the code: the
steps are classified by what stands in front of them, cut into maximal runs of one
kind, and written run by run, a run of code as one line for every step and a run of
data as one line for all of them. The main theorem is that the pass writes exactly
these lines under every table, also one that reads another number of bytes than it
declares or reports another opcode than the byte.

The maximal runs are those of `List.splitBy`. Their lines and those of the segments
follow the same recursion on the steps: a step of code adds its line in front, a step
of data goes into the line in front if that is data (`linesOfRuns_cons_code`,
`linesOfRuns_cons_data`, `Segment.map_line_extend`).
-/

namespace BytecodeListing

/-- How the maximal runs change when an element is put in front. -/
theorem splitBy_cons_cons {α : Type*} (r : α → α → Bool) (a b : α)
    (l : List α) :
    ∃ run runs, (b :: l).splitBy r = (b :: run) :: runs ∧
      (a :: b :: l).splitBy r =
        if r a b then (a :: b :: run) :: runs else [a] :: (b :: run) :: runs := by
  obtain ⟨first, runs, hsplit⟩ := List.exists_cons_of_ne_nil
    (List.splitBy_ne_nil.2 (List.cons_ne_nil b l) : (b :: l).splitBy r ≠ [])
  obtain ⟨hflatten, hnil, hruns, hbetween⟩ := List.splitBy_eq_iff.1 hsplit
  rw [List.mem_cons, not_or] at hnil
  obtain ⟨b', run, rfl⟩ := List.exists_cons_of_ne_nil (Ne.symm hnil.1)
  rw [List.flatten_cons, List.cons_append, List.cons.injEq] at hflatten
  obtain ⟨rfl, hl⟩ := hflatten
  refine ⟨run, runs, hsplit, ?_⟩
  rw [List.splitBy_eq_iff]
  split
  · next hab =>
      refine ⟨by simp [hl], by simp [hnil.2], ?_, ?_⟩
      · intro m hm
        rcases List.mem_cons.1 hm with rfl | hm
        · exact List.IsChain.cons_cons hab (hruns _ List.mem_cons_self)
        · exact hruns m (List.mem_cons_of_mem _ hm)
      · rw [List.isChain_cons] at hbetween ⊢
        refine ⟨?_, hbetween.2⟩
        intro next hnext
        obtain ⟨_, hb, hlast⟩ := hbetween.1 next hnext
        exact ⟨List.cons_ne_nil _ _, hb, by simpa using hlast⟩
  · next hab =>
      refine ⟨by simp [hl], by simp [hnil.2], ?_, ?_⟩
      · intro m hm
        rcases List.mem_cons.1 hm with rfl | hm
        · exact List.IsChain.singleton a
        · exact hruns m hm
      · refine List.IsChain.cons_cons ?_ hbetween
        exact ⟨List.cons_ne_nil _ _, List.cons_ne_nil _ _, by simpa using hab⟩

/-- Puts a step of data in front of some lines, into the run of data that they start
with if they do. -/
def Line.prepend (s : Step) : List Line → List Line
  | .data _ bytes :: lines => .data s.offset (s.bytes ++ bytes) :: lines
  | lines => .data s.offset s.bytes :: lines

theorem Line.prepend_line (s s' : Step) (lines : List Line) :
    Line.prepend s (s'.line :: lines) =
      .data s.offset s.bytes :: s'.line :: lines := by
  rw [Step.line]
  split <;> rfl

theorem Segment.map_line_extend (s : Step) (segs : List Segment) :
    (Segment.extend s segs).map Segment.line =
      Line.prepend s (segs.map Segment.line) := by
  cases segs with
  | nil => simp [Segment.extend, Segment.line, Line.prepend]
  | cons g segs =>
      cases g with
      | code s' =>
          rw [List.map_cons, Segment.line, Line.prepend_line]
          simp [Segment.extend, Segment.line]
      | data first more => rfl

namespace Table

/-- The line of the step with a number, taken for code. -/
def codeLineAt (t : Table) (code : List UInt8) (i : Nat) : Line :=
  let o := t.offsetAt code i
  let entry := t.entryAt code i
  if entry.isPush = true ∧ (t.pushedAt code i).length < entry.width then
    .truncated o entry.width (t.pushedAt code i)
  else
    .code o (t.insnAt code i)

/-- The lines of a run of steps of one kind, given by their numbers. -/
def runLines (t : Table) (code : List UInt8) : List Nat → List Line
  | [] => []
  | i :: run =>
      if t.IsData code i then
        [.data (t.offsetAt code i) ((i :: run).flatMap fun j =>
          (t.entryAt code j).opcode :: t.pushedAt code j)]
      else
        (i :: run).map (t.codeLineAt code)

/-- Whether two steps are both data or both code. -/
def sameKind (t : Table) (code : List UInt8) (i j : Nat) : Bool :=
  t.IsData code i ↔ t.IsData code j

/-- The lines of the maximal runs of one kind among steps given by their numbers. -/
def linesOfRuns (t : Table) (code : List UInt8) (is : List Nat) : List Line :=
  (is.splitBy (t.sameKind code)).flatMap (t.runLines code)

/-- The lines that a code is declared to have. -/
def declaredLines (t : Table) (code : List UInt8) : List Line :=
  t.linesOfRuns code (t.indices code)

section Runs

variable (t : Table) (code : List UInt8)

theorem runLines_of_isData {i : Nat} (h : t.IsData code i) (run : List Nat) :
    t.runLines code (i :: run) =
      [.data (t.offsetAt code i) ((i :: run).flatMap fun j =>
        (t.stepAt code j).bytes)] := if_pos h

theorem runLines_of_not_isData {i : Nat} (h : ¬ t.IsData code i)
    (run : List Nat) :
    t.runLines code (i :: run) =
      (i :: run).map fun j => (t.stepAt code j).line := if_neg h

theorem linesOfRuns_singleton (i : Nat) :
    t.linesOfRuns code [i] = t.runLines code [i] :=
  List.flatMap_singleton _ _

theorem linesOfRuns_cons_code {i : Nat} (hi : ¬ t.IsData code i)
    (is : List Nat) :
    t.linesOfRuns code (i :: is) =
      (t.stepAt code i).line :: t.linesOfRuns code is := by
  cases is with
  | nil =>
      rw [linesOfRuns_singleton, runLines_of_not_isData t code hi]
      rfl
  | cons j is =>
      obtain ⟨run, runs, hrest, hsplit⟩ :=
        splitBy_cons_cons (t.sameKind code) i j is
      rw [linesOfRuns, linesOfRuns, hsplit, hrest]
      by_cases hj : t.IsData code j
      · have hkind : ¬ t.sameKind code i j = true := by simp [sameKind, hi, hj]
        rw [if_neg hkind, List.flatMap_cons, runLines_of_not_isData t code hi]
        rfl
      · have hkind : t.sameKind code i j = true := by simp [sameKind, hi, hj]
        rw [if_pos hkind, List.flatMap_cons, List.flatMap_cons,
          runLines_of_not_isData t code hi, runLines_of_not_isData t code hj]
        rfl

theorem linesOfRuns_cons_data {i : Nat} (hi : t.IsData code i)
    (is : List Nat) :
    t.linesOfRuns code (i :: is) =
      Line.prepend (t.stepAt code i) (t.linesOfRuns code is) := by
  cases is with
  | nil =>
      rw [linesOfRuns_singleton, runLines_of_isData t code hi,
        List.flatMap_singleton]
      rfl
  | cons j is =>
      obtain ⟨run, runs, hrest, hsplit⟩ :=
        splitBy_cons_cons (t.sameKind code) i j is
      by_cases hj : t.IsData code j
      · -- The run that the rest starts with grows at its front.
        have hkind : t.sameKind code i j = true := by simp [sameKind, hi, hj]
        rw [linesOfRuns, linesOfRuns, hsplit, hrest, if_pos hkind,
          List.flatMap_cons, List.flatMap_cons, runLines_of_isData t code hi,
          runLines_of_isData t code hj]
        rfl
      · have hkind : ¬ t.sameKind code i j = true := by simp [sameKind, hi, hj]
        rw [linesOfRuns_cons_code t code hj, Line.prepend_line,
          ← linesOfRuns_cons_code t code hj, linesOfRuns, linesOfRuns, hsplit,
          hrest, if_neg hkind, List.flatMap_cons, runLines_of_isData t code hi,
          List.flatMap_singleton]
        rfl

theorem map_line_ofTrace (is : List Nat) :
    (Segment.ofTrace (is.map fun i =>
        (t.modeAt code i, t.stepAt code i))).map Segment.line =
      t.linesOfRuns code is := by
  induction is with
  | nil => rfl
  | cons i is ih =>
      rw [List.map_cons]
      by_cases hi : t.IsData code i
      · rw [modeAt_of_isData t code hi, Segment.ofTrace_cons_data,
          Segment.map_line_extend, ih, linesOfRuns_cons_data t code hi]
      · rw [modeAt_of_not_isData t code hi, Segment.ofTrace_cons_code,
          List.map_cons, ih, linesOfRuns_cons_code t code hi]
        rfl

theorem map_line_segments :
    (t.segments code).map Segment.line = t.declaredLines code := by
  rw [Table.segments, trace_sweep, map_line_ofTrace, declaredLines]

end Runs

theorem findSome?_fault?_sweep (t : Table) (code : List UInt8)
    (hshift : ∀ b, (t b).shift = 0)
    (hwidth : ∀ i ∈ t.indices code, (t.entryAt code i).isPush = true →
      t.offsetAt code i + 1 + (t.entryAt code i).width < Step.wordLimit) :
    (t.sweep code).findSome? Step.fault? = none := by
  rw [List.findSome?_eq_none_iff, sweep_eq_map_stepAt]
  intro s hs
  obtain ⟨i, hi, rfl⟩ := List.mem_map.1 hs
  have hplace : (t.stepAt code i).insn.offset = (t.stepAt code i).offset := by
    simp [stepAt, insnAt, entryAt, hshift]
  rw [Step.fault?, if_neg (by simp [hplace]), if_neg]
  rintro ⟨hpush, hlimit⟩
  exact absurd hlimit (Nat.not_le.2 (hwidth i hi hpush))

/-- A table that reads one byte of the two that its push declares and reports
other opcodes than the bytes. -/
def overlapping : Table := fun b =>
  if b = 1 then
    { mnemonic := "PUSH2", opcode := 0x61, width := 2, isPush := true, take := 1 }
  else if b = 2 then
    { mnemonic := "JUMPDEST", opcode := Opcode.jumpdest, width := 0,
      isPush := false }
  else if b = 3 then
    { mnemonic := "STOP", opcode := Opcode.stop, width := 0, isPush := false }
  else
    { mnemonic := "NOP", opcode := 0x01, width := 0, isPush := false }

/-- The listing of a code under any table is the declared one, and it is printed line by line
from it. -/
theorem listing?_eq_declaredLines (t : Table) (code : List UInt8)
    (hshift : ∀ b, (t b).shift = 0)
    (hwidth : ∀ i ∈ t.indices code, (t.entryAt code i).isPush = true →
      t.offsetAt code i + 1 + (t.entryAt code i).width < Step.wordLimit) :
    t.listing? code =
      .ok ⟨code.length, t.declaredLines code,
        (t.declaredLines code).countP Line.isData⟩ ∧
      (t.listing? code).map Listing.render = .ok ((t.declaredLines code).map Line.render) := by
  have hlisting : t.listing? code = .ok ⟨code.length, t.declaredLines code,
      (t.declaredLines code).countP Line.isData⟩ := by
    rw [listing?, findSome?_fault?_sweep t code hshift hwidth]
    simp only [listing_eq_segments, map_line_segments]
  exact ⟨hlisting, by rw [hlisting]; rfl⟩

/-- The push read as data takes a byte along that the next step starts with. -/
theorem listing?_overlapping :
    (∀ b, (overlapping b).shift = 0) ∧
      (∀ i ∈ overlapping.indices [1, 9, 3, 9, 1, 2, 2],
        (overlapping.entryAt [1, 9, 3, 9, 1, 2, 2] i).isPush = true →
          overlapping.offsetAt [1, 9, 3, 9, 1, 2, 2] i + 1 +
              (overlapping.entryAt [1, 9, 3, 9, 1, 2, 2] i).width <
            Step.wordLimit) ∧
      overlapping.listing? [1, 9, 3, 9, 1, 2, 2] =
        .ok ⟨7,
          [ .code 0 ⟨0, 0x61, "PUSH2", 2, true, [9]⟩,
            .code 2 ⟨2, 0x00, "STOP", 0, false, []⟩,
            .data 3 [0x01, 0x61, 2, 2],
            .code 6 ⟨6, 0x5b, "JUMPDEST", 0, false, []⟩ ], 1⟩ := by
  have hshift : ∀ b, (overlapping b).shift = 0 := by
    intro b
    simp only [overlapping]
    split_ifs <;> rfl
  have hwidth : ∀ i ∈ overlapping.indices [1, 9, 3, 9, 1, 2, 2],
      (overlapping.entryAt [1, 9, 3, 9, 1, 2, 2] i).isPush = true →
        overlapping.offsetAt [1, 9, 3, 9, 1, 2, 2] i + 1 +
            (overlapping.entryAt [1, 9, 3, 9, 1, 2, 2] i).width <
          Step.wordLimit := by
    decide
  refine ⟨hshift, hwidth, ?_⟩
  rw [(listing?_eq_declaredLines overlapping _ hshift hwidth).1]
  decide

end Table

end BytecodeListing
