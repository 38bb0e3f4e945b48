import BytecodeListing.Proofs.Boundaries

/-!
# Listings around one instruction

A code is cut in front of one of its instructions: `x ++ b :: rest`, where `x` is
made up of whole instructions. What the sweep and the pass make of `x` does not
depend on the bytes behind it, so two codes that share `x` and `b` have listings
that differ from the line of `b` on only. That line is described in the two modes:
a step of code has a line of its own (`Whole.segments_of_code`), a step of data
stands in a run whose front comes from `x` (`Whole.segments_of_data`).

Every byte of a code belongs to an instruction at which the code can be cut
(`exists_whole_append`).
-/

namespace BytecodeListing

namespace Consecutive

theorem append_iff {pc : Nat} {xs ys : List (Nat × List UInt8)} :
    Consecutive pc (xs ++ ys) ↔
      Consecutive pc xs ∧ Consecutive (pc + (xs.flatMap Prod.snd).length) ys := by
  induction xs generalizing pc with
  | nil => simp [Consecutive]
  | cons e xs ih =>
      rw [List.cons_append, consecutive_cons, consecutive_cons, ih, and_assoc,
        List.flatMap_cons, List.length_append, Nat.add_assoc]

theorem offset_head {pc : Nat} {run more tail : List Step} {s first : Step}
    (h : Consecutive pc (run.map Step.extent))
    (hs : s.offset = pc + (run.flatMap Step.bytes).length)
    (hrun : first :: more = run ++ s :: tail) : first.offset = pc := by
  cases run with
  | nil =>
      rw [List.nil_append, List.cons.injEq] at hrun
      rw [hrun.1, hs]
      rfl
  | cons s' run =>
      rw [List.cons_append, List.cons.injEq] at hrun
      rw [hrun.1]
      exact h.1

end Consecutive

namespace Mode

theorem trace_append (mode : Mode) (xs ys : List Step) :
    trace mode (xs ++ ys) = trace mode xs ++ trace (xs.foldl after mode) ys := by
  induction xs generalizing mode with
  | nil => rfl
  | cons s xs ih =>
      rw [List.cons_append, trace_cons, trace_cons, ih]
      rfl

theorem trace_cons_of_code {mode : Mode} {s : Step}
    (h : mode.entering s = code) (steps : List Step) :
    trace mode (s :: steps) = (code, s) :: trace (leaving s) steps := by
  rw [trace_cons, h, after_of_entering_code h]

theorem trace_cons_of_data {mode : Mode} {s : Step}
    (h : mode.entering s = data) (steps : List Step) :
    trace mode (s :: steps) = (data, s) :: trace data steps := by
  rw [trace_cons, h, after_of_entering_data h]

end Mode

namespace Segment

/-- The run of data that some segments start with, and the segments behind it. -/
def lead : List Segment → List Step × List Segment
  | data first more :: segs => (first :: more, segs)
  | segs => ([], segs)

theorem extend_eq_lead (s : Step) (segs : List Segment) :
    extend s segs = data s (lead segs).1 :: (lead segs).2 := by
  cases segs with
  | nil => rfl
  | cons g segs => cases g <;> rfl

theorem extend_append_code (s s' : Step) (segs segs' : List Segment) :
    extend s (segs ++ code s' :: segs') = extend s segs ++ code s' :: segs' := by
  cases segs with
  | nil => rfl
  | cons g segs => cases g <;> rfl

/-- A step of code cuts the segments in two. -/
theorem ofTrace_append_code (marked behind : List (Mode × Step)) (s : Step) :
    ofTrace (marked ++ (.code, s) :: behind) =
      ofTrace marked ++ code s :: ofTrace behind := by
  induction marked with
  | nil => rfl
  | cons m marked ih =>
      obtain ⟨mode, s'⟩ := m
      cases mode with
      | code =>
          rw [List.cons_append, ofTrace_cons_code, ih, ofTrace_cons_code,
            List.cons_append]
      | data =>
          rw [List.cons_append, ofTrace_cons_data, ih, ofTrace_cons_data,
            extend_append_code]

/-- A step of data stands in a run. What is in front of it in the run and in front
of the run comes from the steps in front of it. -/
theorem ofTrace_append_data (marked : List (Mode × Step)) :
    ∃ before run, marked.map Prod.snd = before.flatMap steps ++ run ∧
      ∀ s behind, ∃ first more,
        ofTrace (marked ++ (.data, s) :: behind) =
          before ++ data first more :: (lead (ofTrace behind)).2 ∧
        first :: more = run ++ s :: (lead (ofTrace behind)).1 := by
  induction marked with
  | nil =>
      refine ⟨[], [], rfl, ?_⟩
      intro s behind
      exact ⟨s, _, extend_eq_lead s _, rfl⟩
  | cons m marked ih =>
      obtain ⟨mode, s'⟩ := m
      obtain ⟨before, run, hsteps, ih⟩ := ih
      cases mode with
      | code =>
          refine ⟨code s' :: before, run, by simp [hsteps, steps], ?_⟩
          intro s behind
          obtain ⟨first, more, hsegs, hrun⟩ := ih s behind
          exact ⟨first, more, by rw [List.cons_append, ofTrace_cons_code, hsegs]; rfl,
            hrun⟩
      | data =>
          -- The new step joins the run itself only if nothing is in front of the run.
          cases before with
          | nil =>
              refine ⟨[], s' :: run, by simp [hsteps], ?_⟩
              intro s behind
              obtain ⟨first, more, hsegs, hrun⟩ := ih s behind
              refine ⟨s', first :: more, ?_, by rw [hrun]; rfl⟩
              rw [List.cons_append, ofTrace_cons_data, hsegs]
              rfl
          | cons g before =>
              refine ⟨data s' (lead [g]).1 :: (lead [g]).2 ++ before, run, ?_, ?_⟩
              · cases g <;> simp [hsteps, lead, steps]
              · intro s behind
                obtain ⟨first, more, hsegs, hrun⟩ := ih s behind
                refine ⟨first, more, ?_, hrun⟩
                rw [List.cons_append, ofTrace_cons_data, hsegs]
                cases g <;> rfl

end Segment

namespace Table

/-- The bytes are complete instructions one behind the other, so that their sweep
ends exactly where they end. -/
inductive Whole (t : Table) : List UInt8 → Prop
  | nil : Whole t []
  | cons {b : UInt8} {operand rest : List UInt8}
      (h : operand.length = (t b).take) (hrest : Whole t rest) :
      Whole t (b :: (operand ++ rest))

/-- The segments of the bytes that start at the offset `pc`, read from a mode on. -/
def segmentsFrom (t : Table) (mode : Mode) (pc : Nat) (bytes : List UInt8) :
    List Segment :=
  Segment.ofTrace (mode.trace (t.steps pc bytes))

/-- The segments behind the instruction that starts with `b` at the offset `pc`. -/
def segmentsBehind (t : Table) (mode : Mode) (pc : Nat) (b : UInt8)
    (rest : List UInt8) : List Segment :=
  t.segmentsFrom mode (pc + 1 + (rest.take (t b).take).length) (rest.drop (t b).take)

/-- The mode behind some bytes at the start of a code. -/
def modeBehind (t : Table) (x : List UInt8) : Mode :=
  (t.steps 0 x).foldl Mode.after .code

theorem segments_eq_segmentsFrom (t : Table) (code : List UInt8) :
    t.segments code = t.segmentsFrom .code 0 code := by
  rw [segments, segmentsFrom, sweep_eq_steps]

/-- A step behind some bytes is read as code or as data. -/
theorem code_or_data (t : Table) (x : List UInt8) (b : UInt8) :
    (t.modeBehind x = .code ∨ (t b).opcode = Opcode.jumpdest) ∨
      (t.modeBehind x = .data ∧ (t b).opcode ≠ Opcode.jumpdest) := by
  cases t.modeBehind x with
  | code => exact Or.inl (Or.inl rfl)
  | data =>
      rcases eq_or_ne (t b).opcode Opcode.jumpdest with h | h
      · exact Or.inl (Or.inr h)
      · exact Or.inr ⟨rfl, h⟩

theorem segmentsFrom_code_cons (t : Table) (pc : Nat) (b : UInt8)
    (rest : List UInt8) :
    t.segmentsFrom .code pc (b :: rest) =
      .code (t.stepOf pc b rest) ::
        t.segmentsBehind (.leaving (t.stepOf pc b rest)) pc b rest := by
  rw [segmentsFrom, steps_cons, Mode.trace_cons_of_code (Mode.entering_code _),
    Segment.ofTrace_cons_code]
  rfl

theorem segmentsBehind_of_length_le (t : Table) (mode : Mode) (pc : Nat) {b : UInt8}
    {rest : List UInt8} (h : rest.length ≤ (t b).take) :
    t.segmentsBehind mode pc b rest = [] := by
  rw [segmentsBehind, List.drop_of_length_le h, segmentsFrom, steps_nil,
    Mode.trace_nil, Segment.ofTrace_nil]

theorem Lawful.stepOf_congr {t : Table} (ht : t.Lawful) (pc : Nat) (b : UInt8)
    {rest rest' : List UInt8}
    (h : rest.take (t b).take = rest'.take (t b).take) :
    t.stepOf pc b rest = t.stepOf pc b rest' := by
  have hwidth := ht.take_eq_width b
  simp only [stepOf, ← hwidth, h]

theorem Lawful.length_flatMap_bytes_steps {t : Table} (ht : t.Lawful) (pc : Nat)
    (bytes : List UInt8) :
    ((t.steps pc bytes).flatMap Step.bytes).length = bytes.length := by
  fun_induction steps t pc bytes with
  | case1 pc => rfl
  | case2 pc b rest ih =>
      rw [List.flatMap_cons, List.length_append, ih, ht.bytes_stepOf,
        List.length_cons, List.length_cons, List.length_take, List.length_drop]
      omega

theorem Lawful.whole_iff_steps {t : Table} (ht : t.Lawful) (pc : Nat)
    (bytes : List UInt8) :
    t.Whole bytes ↔ ∀ s ∈ t.steps pc bytes, s.insn.operand.length = s.insn.width := by
  constructor
  · intro h
    induction h generalizing pc with
    | nil => simp
    | @cons b operand rest h _ ih =>
        have htake : (operand ++ rest).take (t b).take = operand := by
          rw [← h, List.take_left]
        have hdrop : (operand ++ rest).drop (t b).take = rest := by
          rw [← h, List.drop_left]
        rw [steps_cons, hdrop, List.forall_mem_cons]
        refine ⟨?_, ih _⟩
        rw [stepOf, htake, h, ht.take_eq_width]
  · intro h
    fun_induction steps t pc bytes with
    | case1 pc => exact .nil
    | case2 pc b rest ih =>
        rw [List.forall_mem_cons] at h
        have hoperand : (rest.take (t b).take).length = (t b).take :=
          h.1.trans (ht.take_eq_width b).symm
        rw [← List.take_append_drop (t b).take rest]
        exact .cons hoperand (ih h.2)

/-- Some bytes are whole instructions exactly when no instruction of their sweep
lacks a part of its operand. -/
theorem Lawful.whole_iff {t : Table} (ht : t.Lawful) {code : List UInt8} :
    t.Whole code ↔ ∀ s ∈ t.sweep code, s.insn.operand.length = s.insn.width := by
  rw [sweep_eq_steps]
  exact ht.whole_iff_steps 0 code

theorem exists_whole_append (t : Table) {code : List UInt8} {i : Nat}
    (h : i < code.length) :
    ∃ x b rest, code = x ++ b :: rest ∧ t.Whole x ∧ x.length ≤ i ∧
      i ≤ x.length + (t b).take := by
  match code with
  | [] => exact absurd h (Nat.not_lt_zero i)
  | b :: rest =>
      rcases Nat.lt_or_ge (t b).take i with hlt | hge
      · rw [List.length_cons] at h
        have hdrop : i - 1 - (t b).take < (rest.drop (t b).take).length := by
          rw [List.length_drop]
          omega
        obtain ⟨x, b', rest', hrest, hx, hle, hge⟩ := exists_whole_append t hdrop
        have hoperand : (rest.take (t b).take).length = (t b).take :=
          List.length_take_of_le (by omega)
        refine ⟨b :: (rest.take (t b).take ++ x), b', rest', ?_,
          .cons hoperand hx, ?_, ?_⟩
        · rw [List.cons_append, List.append_assoc, ← hrest, List.take_append_drop]
        · rw [List.length_cons, List.length_append]
          omega
        · rw [List.length_cons, List.length_append]
          omega
      · exact ⟨[], b, rest, rfl, .nil, Nat.zero_le i, by simpa using hge⟩
termination_by code.length
decreasing_by
  rw [List.length_drop, List.length_cons]
  omega

namespace Whole

variable {t : Table} {x : List UInt8}

theorem steps_append (hx : t.Whole x) (ht : t.Lawful) (pc : Nat)
    (y : List UInt8) :
    t.steps pc (x ++ y) = t.steps pc x ++ t.steps (pc + x.length) y := by
  induction hx generalizing pc with
  | nil => simp
  | @cons b operand rest h _ ih =>
      have htake : (operand ++ (rest ++ y)).take (t b).take = operand := by
        rw [← h, List.take_left]
      have htake' : (operand ++ rest).take (t b).take = operand := by
        rw [← h, List.take_left]
      have hdrop : (operand ++ (rest ++ y)).drop (t b).take = rest ++ y := by
        rw [← h, List.drop_left]
      have hdrop' : (operand ++ rest).drop (t b).take = rest := by
        rw [← h, List.drop_left]
      have hlength : pc + 1 + operand.length + rest.length =
          pc + (b :: (operand ++ rest)).length := by
        rw [List.length_cons, List.length_append]
        omega
      rw [List.cons_append, List.append_assoc, steps_cons, steps_cons, htake, htake',
        hdrop, hdrop', ih, hlength, List.cons_append,
        ht.stepOf_congr pc b (htake.trans htake'.symm)]

theorem boundary_length (hx : evm.Whole x) (b : UInt8) (rest : List UInt8) :
    Boundary (x ++ b :: rest) x.length := by
  have hmem : evm.stepOf x.length b rest ∈ evm.sweep (x ++ b :: rest) := by
    rw [sweep_eq_steps, hx.steps_append lawful_evm, steps_cons, Nat.zero_add]
    exact List.mem_append_right _ List.mem_cons_self
  exact (boundary_of_mem_sweep hmem).1

theorem trace_steps_append (hx : t.Whole x) (ht : t.Lawful) (y : List UInt8) :
    Mode.code.trace (t.steps 0 (x ++ y)) =
      Mode.code.trace (t.steps 0 x) ++
        (t.modeBehind x).trace (t.steps x.length y) := by
  rw [hx.steps_append ht, Mode.trace_append, Nat.zero_add]
  rfl

/-- A step of code has a line of its own. -/
theorem segments_of_code (hx : t.Whole x) (ht : t.Lawful) {b : UInt8}
    (h : t.modeBehind x = .code ∨ (t b).opcode = Opcode.jumpdest)
    (rest : List UInt8) :
    t.segments (x ++ b :: rest) =
      t.segments x ++ .code (t.stepOf x.length b rest) ::
        t.segmentsBehind (.leaving (t.stepOf x.length b rest)) x.length b rest := by
  have hentering : (t.modeBehind x).entering (t.stepOf x.length b rest) = .code := by
    rcases h with h | h
    · rw [h, Mode.entering_code]
    · exact Mode.entering_of_opcode_eq _ h
  rw [segments_eq_segmentsFrom, segments_eq_segmentsFrom, segmentsFrom,
    hx.trace_steps_append ht, steps_cons, Mode.trace_cons_of_code hentering,
    Segment.ofTrace_append_code]
  rfl

/-- A step of data stands in a run of data of which the part in front of it is the
same whatever comes behind. -/
theorem segments_of_data (hx : t.Whole x) (ht : t.Lawful) {b : UInt8}
    (hmode : t.modeBehind x = .data) (hop : (t b).opcode ≠ Opcode.jumpdest) :
    ∃ before start front, start + front.length = x.length ∧
      ∀ rest, ∃ first more,
        t.segments (x ++ b :: rest) =
          before ++ .data first more ::
            (Segment.lead (t.segmentsBehind .data x.length b rest)).2 ∧
        (Segment.data first more).extent =
          (start, front ++ (t.stepOf x.length b rest).bytes ++
            (Segment.lead
              (t.segmentsBehind .data x.length b rest)).1.flatMap Step.bytes) := by
  obtain ⟨before, run, hsteps, hsegs⟩ :=
    Segment.ofTrace_append_data (Mode.code.trace (t.steps 0 x))
  rw [Mode.map_snd_trace] at hsteps
  have hlength := ht.length_flatMap_bytes_steps 0 x
  rw [hsteps, List.flatMap_append, List.length_append] at hlength
  have hrun := ht.consecutive_steps 0 x
  rw [hsteps, List.map_append, Consecutive.append_iff, Nat.zero_add,
    List.flatMap_map] at hrun
  refine ⟨before, ((before.flatMap Segment.steps).flatMap Step.bytes).length,
    run.flatMap Step.bytes, hlength, ?_⟩
  intro rest
  have hentering : (t.modeBehind x).entering (t.stepOf x.length b rest) = .data := by
    rw [hmode]
    exact Mode.entering_of_opcode_ne _ hop
  obtain ⟨first, more, hsegs, hmore⟩ := hsegs (t.stepOf x.length b rest)
    (Mode.data.trace (t.steps (x.length + 1 + (rest.take (t b).take).length)
      (rest.drop (t b).take)))
  refine ⟨first, more, ?_, ?_⟩
  · rw [segments_eq_segmentsFrom, segmentsFrom, hx.trace_steps_append ht, steps_cons,
      Mode.trace_cons_of_data hentering, hsegs]
    rfl
  · have hfirst := hrun.2.offset_head (s := t.stepOf x.length b rest) hlength.symm hmore
    rw [Segment.extent, hmore, hfirst, List.flatMap_append, List.flatMap_cons,
      List.append_assoc]
    rfl

end Whole

end Table

end BytecodeListing
