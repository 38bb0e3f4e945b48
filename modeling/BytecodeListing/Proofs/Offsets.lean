import BytecodeListing.Proofs.Segments

/-!
# Steps by number

`offsetAt t code i` is the offset of the step with the number `i`, given by the
recursion that goes one byte and the bytes read further and is stopped by the end
of the code. The numbers behind the last step stay at the end, so that no number is
left out of a statement. What a step is and how it is read are then said by number:
`stepAt` cuts the step out of the code, and `IsData` looks back over the steps in
front for a terminating one without a JUMPDEST since.

`trace_sweep` says that this is what the sweep and the modes of the pass come to.
-/

namespace BytecodeListing

/-- The bytes of a code between two offsets, both of which are moved back to the
end if they are behind it. -/
def slice (code : List UInt8) (first last : Nat) : List UInt8 :=
  code.extract (min first code.length) (min last code.length)

theorem slice_add (code : List UInt8) (o n : Nat) :
    slice code o (o + n) = (code.drop o).take n := by
  rw [slice, List.extract_eq_take_drop]
  rcases Nat.le_total code.length o with h | h
  · rw [Nat.min_eq_right h, List.drop_of_length_le h, List.drop_length,
      List.take_nil, List.take_nil]
  · rw [Nat.min_eq_left h, List.take_eq_take_iff, List.length_drop]
    omega

namespace Table

/-- The offset of the step with a number, the end of the code for the numbers
behind the last step. -/
def offsetAt (t : Table) (code : List UInt8) : Nat → Nat
  | 0 => 0
  | i + 1 =>
      min (offsetAt t code i + 1 + (t (code.getD (offsetAt t code i) 0)).take)
        code.length

/-- The entry of the byte that the step with a number starts with. -/
def entryAt (t : Table) (code : List UInt8) (i : Nat) : Entry :=
  t (code.getD (t.offsetAt code i) 0)

/-- The numbers of the steps: those with an offset in the code. -/
def indices (t : Table) (code : List UInt8) : List Nat :=
  (List.range code.length).filter fun i => t.offsetAt code i < code.length

/-- The instruction that the step with a number is decoded to. -/
def insnAt (t : Table) (code : List UInt8) (i : Nat) : Instruction :=
  let o := t.offsetAt code i
  let entry := t.entryAt code i
  { offset := o + entry.shift
    opcode := entry.opcode
    mnemonic := entry.mnemonic
    width := entry.width
    isPush := entry.isPush
    operand := slice code (o + 1) (o + 1 + entry.take) }

/-- The bytes pushed by the step with a number. -/
def pushedAt (t : Table) (code : List UInt8) (i : Nat) : List UInt8 :=
  let o := t.offsetAt code i
  let entry := t.entryAt code i
  if entry.isPush then slice code (o + 1) (o + 1 + entry.width) else []

/-- The step with a number is data: some step in front of it terminates, and no
step since then, itself included, is a JUMPDEST. -/
def IsData (t : Table) (code : List UInt8) (i : Nat) : Prop :=
  ∃ j < i, Opcode.isTerminating (t.entryAt code j).opcode = true ∧
    ∀ k ≤ i, j < k → (t.entryAt code k).opcode ≠ Opcode.jumpdest

instance (t : Table) (code : List UInt8) (i : Nat) :
    Decidable (t.IsData code i) :=
  inferInstanceAs (Decidable (∃ j < i,
    Opcode.isTerminating (t.entryAt code j).opcode = true ∧
      ∀ k ≤ i, j < k → (t.entryAt code k).opcode ≠ Opcode.jumpdest))

/-- The step with a number. -/
def stepAt (t : Table) (code : List UInt8) (i : Nat) : Step :=
  ⟨t.offsetAt code i, t.insnAt code i, t.pushedAt code i⟩

/-- The mode in which the step with a number is read. -/
def modeAt (t : Table) (code : List UInt8) (i : Nat) : Mode :=
  if t.IsData code i then .data else .code

section Offsets

variable (t : Table) (code : List UInt8)

theorem offsetAt_succ (i : Nat) :
    t.offsetAt code (i + 1) =
      min (t.offsetAt code i + 1 + (t.entryAt code i).take) code.length := rfl

theorem offsetAt_le (i : Nat) : t.offsetAt code i ≤ code.length := by
  cases i with
  | zero => exact Nat.zero_le _
  | succ i => exact Nat.min_le_right _ _

theorem offsetAt_le_succ (i : Nat) :
    t.offsetAt code i ≤ t.offsetAt code (i + 1) := by
  have := t.offsetAt_le code i
  rw [offsetAt_succ]
  omega

theorem offsetAt_mono {i j : Nat} (h : i ≤ j) :
    t.offsetAt code i ≤ t.offsetAt code j := by
  induction h with
  | refl => exact Nat.le_refl _
  | step _ ih => exact Nat.le_trans ih (t.offsetAt_le_succ code _)

theorem min_le_offsetAt (i : Nat) :
    min i code.length ≤ t.offsetAt code i := by
  induction i with
  | zero => simp
  | succ i ih =>
      rw [offsetAt_succ]
      omega

theorem offsetAt_length : t.offsetAt code code.length = code.length := by
  have hle := t.offsetAt_le code code.length
  have hmin := t.min_le_offsetAt code code.length
  rw [Nat.min_self] at hmin
  exact Nat.le_antisymm hle hmin

theorem mem_indices {i : Nat} :
    i ∈ t.indices code ↔ t.offsetAt code i < code.length := by
  have hmin := t.min_le_offsetAt code i
  rw [indices, List.mem_filter, List.mem_range, decide_eq_true_eq]
  omega

theorem exists_offsetAt_le_lt {o : Nat} (h : o < code.length) :
    ∃ i, t.offsetAt code i ≤ o ∧ o < t.offsetAt code (i + 1) := by
  have hreach : ∀ n, o < t.offsetAt code n →
      ∃ i, t.offsetAt code i ≤ o ∧ o < t.offsetAt code (i + 1) := by
    intro n hn
    induction n with
    | zero => exact absurd hn (Nat.not_lt_zero o)
    | succ n ih =>
        rcases Nat.lt_or_ge o (t.offsetAt code n) with hlt | hge
        · exact ih hlt
        · exact ⟨n, hge, hn⟩
  exact hreach code.length (by rw [offsetAt_length]; exact h)

theorem drop_offsetAt {i : Nat} (h : t.offsetAt code i < code.length) :
    code.drop (t.offsetAt code i) =
      code.getD (t.offsetAt code i) 0 ::
        code.drop (t.offsetAt code i + 1) := by
  rw [List.drop_eq_getElem_cons h, List.getD_eq_getElem?_getD,
    List.getElem?_eq_getElem h, Option.getD_some]

end Offsets

section Trace

variable (t : Table) (code : List UInt8)

@[simp] theorem opcode_stepAt (i : Nat) :
    (t.stepAt code i).insn.opcode = (t.entryAt code i).opcode := rfl

theorem stepOf_eq_stepAt (i : Nat) :
    t.stepOf (t.offsetAt code i) (code.getD (t.offsetAt code i) 0)
        (code.drop (t.offsetAt code i + 1)) = t.stepAt code i := by
  simp only [stepOf, stepAt, insnAt, pushedAt, slice_add, entryAt]

theorem steps_offsetAt {i : Nat} (h : t.offsetAt code i < code.length) :
    t.steps (t.offsetAt code i) (code.drop (t.offsetAt code i)) =
      t.stepAt code i ::
        t.steps (t.offsetAt code (i + 1))
          (code.drop (t.offsetAt code (i + 1))) := by
  have hoffset : t.offsetAt code i + 1 +
      ((code.drop (t.offsetAt code i + 1)).take
        (t.entryAt code i).take).length = t.offsetAt code (i + 1) := by
    rw [List.length_take, List.length_drop, offsetAt_succ]
    omega
  have hdrop : (code.drop (t.offsetAt code i + 1)).drop (t.entryAt code i).take =
      code.drop (t.offsetAt code (i + 1)) := by
    rw [List.drop_drop, offsetAt_succ]
    rcases Nat.le_total (t.offsetAt code i + 1 + (t.entryAt code i).take)
      code.length with hle | hle
    · rw [Nat.min_eq_left hle]
    · rw [Nat.min_eq_right hle, List.drop_of_length_le hle, List.drop_length]
  rw [t.drop_offsetAt code h, steps_cons, stepOf_eq_stepAt]
  rw [entryAt] at hoffset hdrop
  rw [hoffset, hdrop]

theorem not_isData_zero : ¬ t.IsData code 0 := by
  rintro ⟨j, hj, -⟩
  exact absurd hj (Nat.not_lt_zero j)

/-- A step is data when it is no JUMPDEST and the step in front of it is data or
terminates. -/
theorem isData_succ (i : Nat) :
    t.IsData code (i + 1) ↔
      (t.entryAt code (i + 1)).opcode ≠ Opcode.jumpdest ∧
        (t.IsData code i ∨
          Opcode.isTerminating (t.entryAt code i).opcode = true) := by
  constructor
  · rintro ⟨j, hj, hterm, hsince⟩
    refine ⟨hsince (i + 1) (Nat.le_refl _) hj, ?_⟩
    rcases Nat.lt_or_ge j i with hji | hji
    · exact Or.inl ⟨j, hji, hterm,
        fun k hk => hsince k (Nat.le_succ_of_le hk)⟩
    · have : j = i := by omega
      subst this
      exact Or.inr hterm
  · rintro ⟨hop, ⟨j, hj, hterm, hsince⟩ | hterm⟩
    · refine ⟨j, Nat.lt_succ_of_lt hj, hterm, ?_⟩
      intro k hk hjk
      rcases Nat.lt_or_ge i k with hik | hik
      · have : k = i + 1 := by omega
        rw [this]
        exact hop
      · exact hsince k hik hjk
    · refine ⟨i, Nat.lt_succ_self i, hterm, ?_⟩
      intro k hk hik
      have : k = i + 1 := by omega
      rw [this]
      exact hop

theorem not_isData_of_opcode_eq {i : Nat}
    (h : (t.entryAt code i).opcode = Opcode.jumpdest) :
    ¬ t.IsData code i := by
  rintro ⟨j, hj, -, hsince⟩
  exact hsince i (Nat.le_refl i) hj h

theorem modeAt_of_not_isData {i : Nat} (h : ¬ t.IsData code i) :
    t.modeAt code i = .code := if_neg h

theorem modeAt_of_isData {i : Nat} (h : t.IsData code i) :
    t.modeAt code i = .data := if_pos h

@[simp] theorem modeAt_eq_code_iff {i : Nat} :
    t.modeAt code i = .code ↔ ¬ t.IsData code i := by
  rw [modeAt]
  split <;> simp_all

theorem entering_after_stepAt {mode : Mode} {i : Nat}
    (h : mode.entering (t.stepAt code i) = t.modeAt code i) :
    (mode.after (t.stepAt code i)).entering (t.stepAt code (i + 1)) =
      t.modeAt code (i + 1) := by
  have hafter : mode.after (t.stepAt code i) =
      if t.IsData code i ∨
        Opcode.isTerminating (t.entryAt code i).opcode = true
      then .data else .code := by
    by_cases hi : t.IsData code i
    · rw [modeAt_of_isData t code hi] at h
      rw [Mode.after_of_entering_data h, if_pos (Or.inl hi)]
    · rw [modeAt_of_not_isData t code hi] at h
      rw [Mode.after_of_entering_code h, Mode.leaving, opcode_stepAt]
      simp [hi]
  by_cases hop : (t.entryAt code (i + 1)).opcode = Opcode.jumpdest
  · rw [Mode.entering_of_opcode_eq _ hop,
      modeAt_of_not_isData t code (t.not_isData_of_opcode_eq code hop)]
  · rw [Mode.entering_of_opcode_ne _ hop, hafter, modeAt]
    simp only [isData_succ, ne_eq, hop, not_false_eq_true, true_and]

theorem trace_steps_offsetAt {mode : Mode} {i n : Nat}
    (hn : code.length ≤ i + n)
    (h : mode.entering (t.stepAt code i) = t.modeAt code i) :
    mode.trace (t.steps (t.offsetAt code i)
        (code.drop (t.offsetAt code i))) =
      ((List.range' i n).filter fun j => t.offsetAt code j < code.length).map
        fun j => (t.modeAt code j, t.stepAt code j) := by
  have hmin := t.min_le_offsetAt code i
  induction n generalizing mode i with
  | zero =>
      rw [List.drop_of_length_le (by omega)]
      simp
  | succ n ih =>
      rw [List.range'_succ]
      rcases Nat.lt_or_ge (t.offsetAt code i) code.length with hlt | hge
      · rw [List.filter_cons_of_pos (by simpa using hlt), List.map_cons,
          steps_offsetAt t code hlt, Mode.trace_cons, h,
          ih (by omega) (t.entering_after_stepAt code h)
            (t.min_le_offsetAt code (i + 1))]
      · -- All the numbers left are behind the last step.
        have hfilter : (i :: List.range' (i + 1) n).filter
            (fun j => t.offsetAt code j < code.length) = [] := by
          rw [List.filter_eq_nil_iff]
          intro j hj
          have hij : i ≤ j := by
            rw [List.mem_cons, List.mem_range'_1] at hj
            omega
          have := t.offsetAt_mono code hij
          simp only [decide_eq_true_eq]
          omega
        rw [hfilter, List.drop_of_length_le hge]
        simp

/-- The steps of a sweep with the modes they are read in, by number. -/
theorem trace_sweep :
    Mode.code.trace (t.sweep code) =
      (t.indices code).map fun i => (t.modeAt code i, t.stepAt code i) := by
  have hfirst : Mode.code.entering (t.stepAt code 0) = t.modeAt code 0 := by
    rw [Mode.entering_code, modeAt_of_not_isData t code
      (t.not_isData_zero code)]
  rw [sweep_eq_steps, indices, List.range_eq_range']
  exact t.trace_steps_offsetAt code (i := 0) (by omega) hfirst

theorem sweep_eq_map_stepAt :
    t.sweep code = (t.indices code).map (t.stepAt code) := by
  rw [← Mode.map_snd_trace .code (t.sweep code), trace_sweep, List.map_map]
  rfl

end Trace

end Table

end BytecodeListing
