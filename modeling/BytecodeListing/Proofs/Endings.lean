import BytecodeListing.Proofs.Truncation

/-!
# How a pass ends

A pass reads one instruction after the other and checks each of them before it is listed.
`listingWithin` is this pass with a bound on the instructions that are read. Every
instruction takes at least one byte, so as many instructions as there are bytes are enough,
whatever the table declares and reads (`listingWithin_of_length_le`).

A pass fails exactly where it comes upon an instruction that cannot be listed: one that is
reported at another place, or a push whose operand ends at no machine word. What the table
says about bytes at which no step starts does not matter. The table of the EVM lists every
code that fits a memory, that is, one of less than half as many bytes as there are machine
words.
-/

namespace BytecodeListing

theorem Segment.length_extend_le (s : Step) (segs : List Segment) :
    (extend s segs).length ≤ segs.length + 1 := by
  cases segs with
  | nil => exact le_rfl
  | cons g segs => cases g <;> simp [extend]

theorem Segment.length_ofTrace_le (marked : List (Mode × Step)) :
    (ofTrace marked).length ≤ marked.length := by
  induction marked with
  | nil => exact le_rfl
  | cons m marked ih =>
      obtain ⟨mode, s⟩ := m
      rw [List.length_cons]
      cases mode with
      | code =>
          rw [ofTrace_cons_code, List.length_cons]
          exact Nat.succ_le_succ ih
      | data =>
          rw [ofTrace_cons_data]
          exact (length_extend_le s _).trans (Nat.succ_le_succ ih)

namespace Table

/-- What comes of reading on from a cursor, at most the given number of instructions. Each
instruction is checked and then listed. Nothing comes of it if the code goes on behind
them. -/
def passWithin (t : Table) : Nat → Cursor → Pass → Option (Except Step.Fault Pass)
  | 0, c, pass => if c.atEnd then some (.ok pass) else none
  | n + 1, c, pass =>
      if c.atEnd then
        some (.ok pass)
      else
        match (t.step c).fault? with
        | some fault => some (.error fault)
        | none => passWithin t n (t.decode c).2 (pass.advance (t.step c))

/-- The listing of a code of which at most the given number of instructions is read. -/
def listingWithin (t : Table) (n : Nat) (code : List UInt8) :
    Option (Except Step.Fault Listing) :=
  (t.passWithin n (Cursor.start code) Pass.start).map
    (Except.map (Pass.finish code.length))

/-- The step with a number is reached and cannot be listed: it is reported at another
place, or it is a push and the end of its operand is no machine word. -/
def Unlistable (t : Table) (code : List UInt8) (i : Nat) : Prop :=
  t.offsetAt code i < code.length ∧
    ((t.entryAt code i).shift ≠ 0 ∨
      (t.entryAt code i).isPush = true ∧
        Step.wordLimit ≤
          min (t.offsetAt code i + 1) code.length + (t.entryAt code i).width)

/-- What comes of some steps: the fault of the first that cannot be listed, or the pass
behind all of them. -/
def passed (steps : List Step) (pass : Pass) : Except Step.Fault Pass :=
  match steps.findSome? Step.fault? with
  | some fault => .error fault
  | none => .ok (steps.foldl Pass.advance pass)

theorem passed_cons (s : Step) (steps : List Step) (pass : Pass) :
    passed (s :: steps) pass =
      match s.fault? with
      | some fault => .error fault
      | none => passed steps (pass.advance s) := by
  rw [passed, List.findSome?_cons]
  cases s.fault? <;> rfl

/-- As many instructions as there are bytes left are enough. -/
theorem passWithin_of_length_le (t : Table) {n : Nat} {c : Cursor}
    (h : c.rest.length ≤ n) (pass : Pass) :
    t.passWithin n c pass = some (passed (t.sweepFrom c #[]).toList pass) := by
  induction n generalizing c pass with
  | zero =>
      have hrest : c.rest = [] := List.length_eq_zero_iff.1 (Nat.le_zero.1 h)
      rw [passWithin, if_pos (Cursor.atEnd_iff.2 hrest), sweepFrom_of_atEnd t hrest]
      rfl
  | succ n ih =>
      by_cases hrest : c.rest = []
      · rw [passWithin, if_pos (Cursor.atEnd_iff.2 hrest), sweepFrom_of_atEnd t hrest]
        rfl
      · have hshorter := t.length_rest_decode_lt hrest
        rw [passWithin, if_neg (mt Cursor.atEnd_iff.1 hrest),
          toList_sweepFrom_of_not_atEnd t hrest, passed_cons, ih (by omega)]
        cases (t.step c).fault? <;> rfl

theorem listingWithin_of_length_le (t : Table) {n : Nat} {code : List UInt8}
    (h : code.length ≤ n) : t.listingWithin n code = some (t.listing? code) := by
  rw [listingWithin, t.passWithin_of_length_le (c := Cursor.start code) h, listing?,
    Option.map_some, ← sweep, passed]
  cases (t.sweep code).findSome? Step.fault? <;> rfl

section Faults

variable {t : Table} {code : List UInt8} {i : Nat}

theorem fault?_stepAt_eq_none_iff (h : t.offsetAt code i < code.length) :
    (t.stepAt code i).fault? = none ↔ ¬ t.Unlistable code i := by
  have hmin : min (t.offsetAt code i + 1) code.length = t.offsetAt code i + 1 :=
    Nat.min_eq_left h
  rw [Unlistable, hmin, Step.fault?]
  simp only [stepAt, insnAt]
  split_ifs <;> grind

theorem findSome?_fault?_sweep_eq_none_iff :
    (t.sweep code).findSome? Step.fault? = none ↔ ∀ i, ¬ t.Unlistable code i := by
  rw [List.findSome?_eq_none_iff, sweep_eq_map_stepAt]
  constructor
  · intro h i hi
    have hmem := List.mem_map_of_mem (f := t.stepAt code) ((t.mem_indices code).2 hi.1)
    exact (fault?_stepAt_eq_none_iff hi.1).1 (h _ hmem) hi
  · rintro h s hs
    obtain ⟨i, hi, rfl⟩ := List.mem_map.1 hs
    exact (fault?_stepAt_eq_none_iff ((t.mem_indices code).1 hi)).2 (h i)

theorem listing?_of_listable (h : ∀ i, ¬ t.Unlistable code i) :
    t.listing? code = .ok (t.listing code) := by
  rw [listing?, findSome?_fault?_sweep_eq_none_iff.2 h]

theorem exists_fault_iff :
    (∃ fault, t.listing? code = .error fault) ↔ ∃ i, t.Unlistable code i := by
  rw [listing?, ← not_iff_not, not_exists, not_exists,
    ← findSome?_fault?_sweep_eq_none_iff]
  cases (t.sweep code).findSome? Step.fault? <;> simp

end Faults

theorem length_sweep_le (t : Table) (code : List UInt8) :
    (t.sweep code).length ≤ code.length := by
  rw [sweep_eq_map_stepAt, List.length_map, indices]
  calc ((List.range code.length).filter _).length
      ≤ (List.range code.length).length := List.length_filter_le _ _
    _ = code.length := List.length_range

theorem length_lines_le (t : Table) (code : List UInt8) :
    (t.listing code).lines.length ≤ code.length := by
  have hmarked := Segment.length_ofTrace_le (Mode.code.trace (t.sweep code))
  rw [← List.length_map (f := Prod.snd), Mode.map_snd_trace] at hmarked
  rw [lines_listing, List.length_map, segments]
  exact hmarked.trans (t.length_sweep_le code)

theorem not_unlistable {t : Table} {code : List UInt8} (hshift : ∀ b, (t b).shift = 0)
    (hwidth : ∀ b, code.length + (t b).width < Step.wordLimit) (i : Nat) :
    ¬ t.Unlistable code i := by
  rintro ⟨-, hmoved | ⟨-, hword⟩⟩
  · exact hmoved (hshift _)
  · have hentry : code.length + (t.entryAt code i).width < Step.wordLimit := hwidth _
    omega

/-- A pass ends within as many steps as there are bytes. It fails exactly where it comes
upon a step that cannot be listed, and else gives at most one line for each byte. -/
theorem listing?_ends (t : Table) (code : List UInt8) :
    t.listingWithin code.length code = some (t.listing? code) ∧
      ((∃ fault, t.listing? code = .error fault) ↔ ∃ i, t.Unlistable code i) ∧
      ((∀ i, ¬ t.Unlistable code i) →
        ∃ listing, t.listing? code = .ok listing ∧
          listing.lines.length ≤ code.length) ∧
      (code.length ≤ 0x7fffffffffffffff → evm.listing? code = .ok (disassemble code)) := by
  refine ⟨t.listingWithin_of_length_le le_rfl, exists_fault_iff, ?_, ?_⟩
  · intro h
    exact ⟨t.listing code, listing?_of_listable h, t.length_lines_le code⟩
  · intro h
    have hwidth : ∀ b, code.length + (evm b).width < Step.wordLimit := by
      intro b
      have hle : (evm b).width ≤ 32 := Opcode.width_le b
      rw [Step.wordLimit]
      omega
    exact listing?_of_listable (not_unlistable (fun _ => rfl) hwidth)

end Table

end BytecodeListing
