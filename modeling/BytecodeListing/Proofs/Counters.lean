import Mathlib.Data.Set.Card
import BytecodeListing.Proofs.Accounting
import BytecodeListing.Proofs.Runs

/-!
# What is counted in a pass

When a code has been listed a record says how many bytes it has, how many lines came of
them, and how many of the lines are runs of data. The pass counts the runs of data where it
closes them, which it does in two places. Here they are counted by the steps: a maximal run
of data is an interval of step numbers (`Table.DataRun`), and there are as many of them as
there are lines of data (`Table.countP_isData_lines`), while every other line is a step of
code (`Table.countP_code_lines`).

A run is known by its last step, so runs are counted by the steps that end one
(`Table.dataRuns_eq_countP`). Lines are made from the last step on, and there a step that
ends a run is one that starts a line of data (`Table.countP_linesOfRuns`).
-/

namespace BytecodeListing

namespace Line

/-- Whether the first of some lines is a run of data. -/
def startsData (lines : List Line) : Bool :=
  lines.head?.any isData

/-- A step of data makes a line of its own unless there is a run of data behind it. -/
theorem countP_isData_prepend (s : Step) (lines : List Line) :
    (prepend s lines).countP isData =
      lines.countP isData + if startsData lines then 0 else 1 := by
  cases lines with
  | nil => rfl
  | cons line lines =>
      cases line <;> simp [prepend, startsData, List.countP_cons, isData]

theorem countP_not_isData_prepend (s : Step) (lines : List Line) :
    (prepend s lines).countP (fun line => !line.isData) =
      lines.countP fun line => !line.isData := by
  cases lines with
  | nil => rfl
  | cons line lines => cases line <;> simp [prepend, isData]

end Line

namespace Table

/-- The steps with numbers from `first` to `last` are a maximal run of data. -/
structure DataRun (t : Table) (code : List UInt8) (first last : Nat) : Prop where
  first_le_last : first ≤ last
  last_lt : t.offsetAt code last < code.length
  isData : ∀ i, first ≤ i → i ≤ last → t.IsData code i
  /-- The step in front, if there is one, is code. -/
  code_before : ∀ i, i + 1 = first → ¬ t.IsData code i
  /-- So is the step behind. -/
  code_behind : t.offsetAt code (last + 1) < code.length → ¬ t.IsData code (last + 1)

/-- The number of maximal runs of data. -/
noncomputable def dataRuns (t : Table) (code : List UInt8) : Nat :=
  {run : Nat × Nat | t.DataRun code run.1 run.2}.ncard

/-- The number of steps that are code. -/
def codeSteps (t : Table) (code : List UInt8) : Nat :=
  (t.indices code).countP fun i => ¬ t.IsData code i

/-- Of `n` steps, the one with the number ends a run of data. -/
def EndsRun (t : Table) (code : List UInt8) (n i : Nat) : Prop :=
  t.IsData code i ∧ (i + 1 < n → ¬ t.IsData code (i + 1))

instance (t : Table) (code : List UInt8) (n : Nat) : DecidablePred (t.EndsRun code n) :=
  fun _ => inferInstanceAs (Decidable (_ ∧ _))

section Runs

variable (t : Table) (code : List UInt8)

/-- The numbers of the steps are those below the number of steps. -/
theorem exists_indices_eq_range :
    ∃ n, t.indices code = List.range n ∧ ∀ i, i < n ↔ t.offsetAt code i < code.length := by
  have hend : ∃ n, code.length ≤ t.offsetAt code n :=
    ⟨code.length, (t.offsetAt_length code).ge⟩
  have hlt (i : Nat) : i < Nat.find hend ↔ t.offsetAt code i < code.length := by
    rw [Nat.lt_find_iff]
    constructor
    · exact fun h => Nat.lt_of_not_le (h i le_rfl)
    · intro h m hm
      exact Nat.not_le.2 ((t.offsetAt_mono code hm).trans_lt h)
  have hle : Nat.find hend ≤ code.length := Nat.find_le (t.offsetAt_length code).ge
  refine ⟨Nat.find hend, ?_, hlt⟩
  obtain ⟨more, hmore⟩ := Nat.exists_eq_add_of_le hle
  simp only [indices, ← hlt]
  generalize Nat.find hend = n at hmore
  rw [hmore, List.range_add, List.filter_append, List.filter_eq_self.2, List.filter_eq_nil_iff.2,
    List.append_nil]
  · simp
  · simp

theorem startsData_linesOfRuns_cons (i : Nat) (is : List Nat) :
    Line.startsData (t.linesOfRuns code (i :: is)) = decide (t.IsData code i) := by
  by_cases hi : t.IsData code i
  · rw [linesOfRuns_cons_data t code hi]
    cases t.linesOfRuns code is with
    | nil => simp [Line.prepend, Line.startsData, Line.isData, hi]
    | cons line lines => cases line <;> simp [Line.prepend, Line.startsData, Line.isData, hi]
  · rw [linesOfRuns_cons_code t code hi]
    simp [Line.startsData, Step.isData_line, hi]

/-- There is a line of data for each step that ends a run. -/
theorem countP_linesOfRuns {i k n : Nat} (hn : i + k = n) :
    (t.linesOfRuns code (List.range' i k)).countP Line.isData =
      (List.range' i k).countP fun j => t.EndsRun code n j := by
  induction k generalizing i with
  | zero => rfl
  | succ k ih =>
      have ih := ih (i := i + 1) (by omega)
      rw [List.range'_succ, List.countP_cons, ← ih]
      by_cases hi : t.IsData code i
      · rw [linesOfRuns_cons_data t code hi, Line.countP_isData_prepend]
        congr 1
        cases k with
        | zero =>
            have hends : t.EndsRun code n i := ⟨hi, by omega⟩
            simp [hends, linesOfRuns, Line.startsData]
        | succ k =>
            rw [List.range'_succ, startsData_linesOfRuns_cons]
            have hends : t.EndsRun code n i ↔ ¬ t.IsData code (i + 1) :=
              ⟨fun h => h.2 (by omega), fun h => ⟨hi, fun _ => h⟩⟩
            by_cases hnext : t.IsData code (i + 1) <;> simp [hends, hnext]
      · rw [linesOfRuns_cons_code t code hi, List.countP_cons, Step.isData_line]
        simp [EndsRun, hi]

theorem countP_code_linesOfRuns (is : List Nat) :
    (t.linesOfRuns code is).countP (fun line => !line.isData) =
      is.countP fun i => ¬ t.IsData code i := by
  induction is with
  | nil => rfl
  | cons i is ih =>
      rw [List.countP_cons, ← ih]
      by_cases hi : t.IsData code i
      · rw [linesOfRuns_cons_data t code hi, Line.countP_not_isData_prepend]
        simp [hi]
      · rw [linesOfRuns_cons_code t code hi, List.countP_cons, Step.isData_line]
        simp [hi]

/-- Two runs with the same last step are the same. -/
theorem DataRun.first_le {t : Table} {code : List UInt8} {first first' last : Nat}
    (h : t.DataRun code first last) (h' : t.DataRun code first' last) : first' ≤ first := by
  by_contra hlt
  have hdata := h.isData (first' - 1) (by omega) (by have := h'.first_le_last; omega)
  exact h'.code_before (first' - 1) (by omega) hdata

/-- Every step that ends a run is the last one of a run. -/
theorem exists_dataRun {last n : Nat}
    (hn : ∀ i, i < n ↔ t.offsetAt code i < code.length) (hlast : last < n)
    (hends : t.EndsRun code n last) : ∃ first, t.DataRun code first last := by
  -- The run reaches back to the first step from which on all is data.
  have hstart : ∃ first ≤ last, ∀ i, first ≤ i → i ≤ last → t.IsData code i :=
    ⟨last, le_rfl, fun i hle hge => le_antisymm hge hle ▸ hends.1⟩
  obtain ⟨hle, hdata⟩ := Nat.find_spec hstart
  refine ⟨Nat.find hstart, hle, (hn last).1 hlast, hdata, ?_, fun h => hends.2 ((hn _).2 h)⟩
  intro i hi hbefore
  refine Nat.find_min hstart (m := i) (by omega) ⟨by omega, fun j hij hj => ?_⟩
  rcases Nat.eq_or_lt_of_le hij with rfl | hlt
  · exact hbefore
  · exact hdata j (by omega) hj

theorem dataRuns_eq_countP {n : Nat}
    (hn : ∀ i, i < n ↔ t.offsetAt code i < code.length) :
    t.dataRuns code = (List.range n).countP fun i => t.EndsRun code n i := by
  have hends : Prod.snd '' {run : Nat × Nat | t.DataRun code run.1 run.2} =
      ↑((List.range n).filter fun i => t.EndsRun code n i).toFinset := by
    ext last
    simp only [Set.mem_image, Set.mem_ofPred_eq, Prod.exists, exists_eq_right, List.coe_toFinset,
      List.mem_filter, List.mem_range, decide_eq_true_eq]
    constructor
    · rintro ⟨first, hrun⟩
      exact ⟨(hn last).2 hrun.last_lt, hrun.isData last hrun.first_le_last le_rfl,
        fun h => hrun.code_behind ((hn _).1 h)⟩
    · rintro ⟨hlast, hends⟩
      exact t.exists_dataRun code hn hlast hends
  have hinj : Set.InjOn Prod.snd {run : Nat × Nat | t.DataRun code run.1 run.2} := by
    rintro ⟨first, last⟩ h ⟨first', last'⟩ h' (rfl : last = last')
    exact Prod.ext (le_antisymm (h'.first_le h) (h.first_le h')) rfl
  rw [dataRuns, ← hinj.ncard_image, hends, Set.ncard_coe_finset,
    List.toFinset_card_of_nodup (List.nodup_range.filter _), List.countP_eq_length_filter]

/-- There are as many lines of data as there are maximal runs of data. -/
theorem countP_isData_lines :
    (t.listing code).lines.countP Line.isData = t.dataRuns code := by
  obtain ⟨n, hindices, hn⟩ := t.exists_indices_eq_range code
  rw [lines_listing, map_line_segments, declaredLines, hindices, List.range_eq_range',
    t.countP_linesOfRuns code (Nat.zero_add n), t.dataRuns_eq_countP code hn,
    List.range_eq_range']

/-- Every other line is a step of code. -/
theorem countP_code_lines :
    (t.listing code).lines.countP (fun line => !line.isData) = t.codeSteps code := by
  rw [lines_listing, map_line_segments, declaredLines, countP_code_linesOfRuns, codeSteps]

end Runs

end Table

namespace Record

/-- Whether a record says that a code has been listed. -/
def isPass (r : Record) : Bool :=
  r.message = "Disassembled bytecode"

/-- The record of a pass counts what there is to be counted: the bytes of the code, the lines
of the listing, and the lines of data among them. The lines of data are as many as the
maximal runs of data, and the others as many as the steps of code. -/
structure Counts (r : Record) (t : Table) (code : List UInt8) (l : Listing) : Prop where
  record : r = ⟨.debug, "Disassembled bytecode",
    [("bytes", .number code.length), ("lines", .number l.lines.length),
      ("data_regions", .number (l.lines.countP Line.isData))]⟩
  codeSteps : l.lines.length - l.lines.countP Line.isData = t.codeSteps code
  dataRuns : l.lines.countP Line.isData = t.dataRuns code

theorem counts_disassembled (t : Table) (code : List UInt8) :
    (disassembled (t.listing code)).Counts t code (t.listing code) where
  record := by
    rw [disassembled, t.listing_eq_segments code]
  codeSteps := by
    rw [List.length_eq_countP_add_countP Line.isData, Nat.add_sub_cancel_left,
      ← t.countP_code_lines code]
    simp
  dataRuns := t.countP_isData_lines code

end Record

namespace Shell

/-- The code that an accepted piece stands for. -/
def code? (piece : List UInt8) : Option (List UInt8) :=
  (String.fromUTF8? (strip piece).toByteArray).bind fun text =>
    if Text.trim text.toList ∈ ["exit".toList, "quit".toList, []] then none
    else (Source.parse text).toOption

end Shell

namespace Program

/-- The codes that a task lists, in order. -/
def codes (t : Tree) (input : List UInt8) : Task → List (List UInt8)
  | .list arg => (t.perform (Source.resolve arg)).1.2.toOption.toList
  | .shell => (Shell.answered (Shell.pieces input)).filterMap Shell.code?

end Program

/-- The records of passes among some events. -/
def Event.passes (events : List Event) : List Record :=
  (records events).filter Record.isPass

namespace Event

variable (events : List Event)

@[simp] theorem passes_nil : passes [] = [] := rfl

@[simp] theorem passes_print (line : String) : passes (print line :: events) = passes events :=
  rfl

@[simp] theorem passes_complain (line : String) :
    passes (complain line :: events) = passes events := rfl

theorem passes_log (r : Record) :
    passes (log r :: events) = if r.isPass then r :: passes events else passes events := by
  cases h : r.isPass <;> simp [passes, records, record?, h]

theorem passes_prints (lines : List String) :
    passes (lines.map print ++ events) = passes events := by
  induction lines with
  | nil => rfl
  | cons line lines ih => simp [ih]

end Event

namespace Shell

section Pieces

variable {piece : List UInt8}

/-- How a piece is answered that does not end the session: with the listing of its code, or
without one. -/
theorem answer?_cases (hgo : ¬ Ends piece) :
    (∃ code, code? piece = some code ∧
        answer? piece = some (.ok (.listing (disassemble code)))) ∨
      code? piece = none ∧
        (answer? piece = some (.ok .skip) ∨ ∃ fault, answer? piece = some (.error fault)) := by
  rw [Ends, answer?] at hgo
  rw [code?, answer?]
  cases htext : String.fromUTF8? (strip piece).toByteArray with
  | none => exact absurd (.inl (by rw [htext]; rfl)) hgo
  | some text =>
      rw [htext] at hgo
      simp only [Option.map_some, Option.bind_some, Option.some.injEq, handle_eq] at hgo ⊢
      have hother : Text.trim text.toList ∉ farewells := fun hmem => hgo (.inr (if_pos hmem))
      rw [if_neg hother]
      by_cases hempty : Text.trim text.toList = []
      · exact .inr ⟨if_pos (by simp [hempty]), .inl (if_pos hempty)⟩
      · have hnone : Text.trim text.toList ∉ ["exit".toList, "quit".toList, []] := by
          simpa [farewells, hempty] using hother
        rw [if_neg hempty, if_neg hnone]
        cases Source.parse text with
        | error fault => exact .inr ⟨rfl, .inr ⟨fault, rfl⟩⟩
        | ok code => exact .inl ⟨code, rfl, rfl⟩

/-- A session makes one record for each code that is listed. -/
theorem passes_session (ps : List (List UInt8)) :
    Event.passes (session (ps.map strip)).1 =
      ((answered ps).filterMap code?).map fun code => .disassembled (disassemble code) := by
  induction ps with
  | nil => rfl
  | cons piece ps ih =>
      rw [List.map_cons, session_cons]
      by_cases hends : Ends piece
      · rw [answered_of_ends hends]
        rcases hends with hanswer | hanswer
        · simp [hanswer, Event.passes_log, Record.isPass, Record.shellFailed]
        · simp [hanswer]
      · rw [answered_of_not_ends hends, List.filterMap_cons]
        obtain ⟨code, hcode, hanswer⟩ | ⟨hcode, hanswer | ⟨fault, hanswer⟩⟩ :=
          answer?_cases hends
        · simp [hcode, hanswer, Event.passes_log, Event.passes_prints, Record.isPass,
            Record.disassembled, Record.shellListing, ih]
        · simp [hcode, hanswer, ih]
        · simp [hcode, hanswer, Event.passes_log, Record.isPass, Record.rejected, ih]

end Pieces

end Shell

namespace Program

theorem passes_listCode (t : Tree) (arg : String) :
    Event.passes (t.perform (listCode arg)).1.1 =
      (t.perform (Source.resolve arg)).1.2.toOption.toList.map fun code =>
        .disassembled (disassemble code) := by
  have hquiet : ∀ events, Event.passes ((t.perform (Source.resolve arg)).1.1.map .log ++ events) =
      Event.passes events := by
    intro events
    rw [Source.perform_resolve]
    cases t.kind? ⟨arg⟩ with
    | none => rfl
    | some kind => simp [Event.passes_log, Record.isPass, Record.readingFile]
  rw [listCode, Source.list, Tree.perform_bind, Tree.perform_bind]
  generalize t.perform (Source.resolve arg) = resolved at hquiet
  obtain ⟨⟨records, fault | code⟩, t'⟩ := resolved
  · exact (hquiet _).trans
      (by simp [Event.passes_log, Record.isPass, Record.notLoaded, Except.toOption])
  · change Event.passes ((records ++ [Record.disassembled (disassemble code)]).map .log ++ _) = _
    rw [List.map_append, List.append_assoc, hquiet]
    simp [Event.passes_log, Record.isPass, Record.disassembled, Except.toOption]

/-- A task makes one record for each code that it lists. -/
theorem passes_perform (t : Tree) (task : Task) (input : List UInt8) :
    Event.passes (t.perform (perform task input)).1.1 =
      (codes t input task).map fun code => .disassembled (disassemble code) := by
  cases task with
  | list arg => exact passes_listCode t arg
  | shell =>
      rw [codes, ← Shell.passes_session, ← Shell.lines_eq]
      rfl

end Program

/-- What is recorded of a pass describes the listing. -/
theorem pass_record_counts :
    (∀ (t : Table) (code : List UInt8) (l : Listing), t.listing? code = .ok l →
      (Record.disassembled l).Counts t code l) ∧
    (∀ code, (Record.disassembled (disassemble code)).Counts .evm code (disassemble code)) ∧
    ∀ (t : Tree) (task : Task) (input : List UInt8),
      Event.passes (t.perform (Program.perform task input)).1.1 =
        (Program.codes t input task).map fun code => .disassembled (disassemble code) := by
  refine ⟨fun t code l h => ?_, Record.counts_disassembled .evm, Program.passes_perform⟩
  rw [Table.listing?] at h
  split at h
  · cases h
  · cases h
    exact Record.counts_disassembled t code

/-- Two runs of data: one that a step of code ends, with code bytes that are no steps in it,
and one that the end of the code cuts off. -/
theorem pass_record_counts_twoRuns :
    ∃ l, Table.oneWide.listing? [0, 1, 0x5b, 0x5b, 0x5b, 0, 1] = .ok l ∧
      Record.disassembled l = ⟨.debug, "Disassembled bytecode",
        [("bytes", .number 7), ("lines", .number 5), ("data_regions", .number 2)]⟩ ∧
      Table.oneWide.dataRuns [0, 1, 0x5b, 0x5b, 0x5b, 0, 1] = 2 ∧
      Table.oneWide.codeSteps [0, 1, 0x5b, 0x5b, 0x5b, 0, 1] = 3 := by
  have hlist : Table.oneWide.listing? [0, 1, 0x5b, 0x5b, 0x5b, 0, 1] =
      .ok (Table.oneWide.listing [0, 1, 0x5b, 0x5b, 0x5b, 0, 1]) := by
    refine Table.listing?_of_listable (Table.not_unlistable (fun _ => rfl) fun b => ?_)
    simp only [Table.oneWide]
    split <;> decide
  have hlines : (Table.oneWide.listing [0, 1, 0x5b, 0x5b, 0x5b, 0, 1]).lines =
      [ .code 0 ⟨0, 0, "OP", 0, false, []⟩,
        .data 1 [1, 0x5b, 0x5b],
        .code 4 ⟨4, 0x5b, "OP", 0, false, []⟩,
        .code 5 ⟨5, 0, "OP", 0, false, []⟩,
        .data 6 [1] ] := by
    rw [Table.lines_listing, Table.map_line_segments]
    decide
  obtain ⟨hrecord, hcode, hdata⟩ := pass_record_counts.1 _ _ _ hlist
  rw [hlines] at hrecord hcode hdata
  exact ⟨_, hlist, hrecord, hdata.symm, hcode.symm⟩

end BytecodeListing
