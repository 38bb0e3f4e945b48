import Mathlib.Data.List.Pairwise
import BytecodeListing.Listing.Pass
import BytecodeListing.Proofs.Steps

/-!
# Segments of a sweep

The pass carries a mode, an open run of data and the lines written so far. Here
the three are taken apart. `Mode.trace` gives every step the mode it is read in,
and `Segment.ofTrace` cuts the steps so marked into what the lines are made of: a step
of code on its own, or a run of data. `listing_eq_segments` says that the pass
writes the lines of the segments and nothing else, so every property of a
listing is one of its segments.

The pass writes a run of data when it ends, the segments name it when it starts.
`pending` is what bridges the two: the lines still to come when a run of data is
open in front of some segments.
-/

namespace BytecodeListing

namespace Mode

/-- The mode behind a step. -/
def after (mode : Mode) (s : Step) : Mode :=
  match mode.entering s with
  | .code => .leaving s
  | .data => .data

/-- The steps with the modes they are read in. -/
def trace : Mode → List Step → List (Mode × Step)
  | _, [] => []
  | mode, s :: steps => (mode.entering s, s) :: trace (mode.after s) steps

@[simp] theorem trace_nil (mode : Mode) : trace mode [] = [] := rfl

theorem trace_cons (mode : Mode) (s : Step) (steps : List Step) :
    trace mode (s :: steps) =
      (mode.entering s, s) :: trace (mode.after s) steps := rfl

@[simp] theorem map_snd_trace (mode : Mode) (steps : List Step) :
    (trace mode steps).map Prod.snd = steps := by
  induction steps generalizing mode with
  | nil => rfl
  | cons s steps ih => rw [trace_cons, List.map_cons, ih]

@[simp] theorem entering_code (s : Step) : code.entering s = code := by
  simp [entering]

theorem entering_of_opcode_eq (mode : Mode) {s : Step}
    (h : s.insn.opcode = Opcode.jumpdest) : mode.entering s = code := by
  simp [entering, h]

theorem entering_of_opcode_ne (mode : Mode) {s : Step}
    (h : s.insn.opcode ≠ Opcode.jumpdest) : mode.entering s = mode := by
  simp [entering, h]

theorem eq_data_of_entering {mode : Mode} {s : Step}
    (h : mode.entering s = data) : mode = data := by
  rw [entering] at h
  split at h
  · cases h
  · exact h

theorem after_of_entering_code {mode : Mode} {s : Step}
    (h : mode.entering s = code) : mode.after s = leaving s := by
  rw [after, h]

theorem after_of_entering_data {mode : Mode} {s : Step}
    (h : mode.entering s = data) : mode.after s = data := by
  rw [after, h]

end Mode

/-- What one line is made of: a step taken for code, or a run of steps taken for
data, which is not empty. -/
inductive Segment where
  | code (step : Step)
  | data (first : Step) (more : List Step)
  deriving DecidableEq, Repr

namespace Segment

/-- The steps of a segment. -/
def steps : Segment → List Step
  | code step => [step]
  | data first more => first :: more

/-- The line of a segment. -/
def line : Segment → Line
  | code step => step.line
  | data first more => .data first.offset ((first :: more).flatMap Step.bytes)

/-- Where a segment starts and the bytes of its steps. -/
def extent : Segment → Nat × List UInt8
  | code step => step.extent
  | data first more => (first.offset, (first :: more).flatMap Step.bytes)

/-- Puts a step of data in front of some segments, into the run of data that
they start with if they do. -/
def extend (s : Step) : List Segment → List Segment
  | data first more :: segs => data s (first :: more) :: segs
  | segs => data s [] :: segs

/-- The segments of some steps with their modes. -/
def ofTrace : List (Mode × Step) → List Segment
  | [] => []
  | (.code, s) :: marked => code s :: ofTrace marked
  | (.data, s) :: marked => extend s (ofTrace marked)

@[simp] theorem ofTrace_nil : ofTrace [] = [] := rfl

theorem ofTrace_cons_code (s : Step) (marked : List (Mode × Step)) :
    ofTrace ((.code, s) :: marked) = code s :: ofTrace marked := rfl

theorem ofTrace_cons_data (s : Step) (marked : List (Mode × Step)) :
    ofTrace ((.data, s) :: marked) = extend s (ofTrace marked) := rfl

theorem mem_extend_code {s step : Step} {segs : List Segment} :
    code step ∈ extend s segs ↔ code step ∈ segs := by
  cases segs with
  | nil => simp [extend]
  | cons g segs => cases g <;> simp [extend]

/-- A step has a line of its own exactly when it is read as code. -/
theorem code_mem_ofTrace {step : Step} {marked : List (Mode × Step)} :
    code step ∈ ofTrace marked ↔ (Mode.code, step) ∈ marked := by
  induction marked with
  | nil => simp
  | cons m marked ih =>
      obtain ⟨mode, s⟩ := m
      cases mode with
      | code => simp [ofTrace_cons_code, ih]
      | data => simp [ofTrace_cons_data, mem_extend_code, ih]

theorem flatMap_steps_ofTrace (marked : List (Mode × Step)) :
    (ofTrace marked).flatMap steps = marked.map Prod.snd := by
  induction marked with
  | nil => rfl
  | cons m marked ih =>
      obtain ⟨mode, s⟩ := m
      rw [List.map_cons, ← ih]
      cases mode with
      | code => rfl
      | data =>
          rw [ofTrace_cons_data]
          cases ofTrace marked with
          | nil => rfl
          | cons g segs => cases g <;> rfl

theorem consecutive_ofTrace {pc : Nat} {marked : List (Mode × Step)}
    (h : Consecutive pc (marked.map fun m => m.2.extent)) :
    Consecutive pc ((ofTrace marked).map extent) := by
  induction marked generalizing pc with
  | nil => trivial
  | cons m marked ih =>
      obtain ⟨mode, s⟩ := m
      obtain ⟨hfst, hrest⟩ := h
      have ih := ih hrest
      cases mode with
      | code => exact ⟨hfst, ih⟩
      | data =>
          rw [ofTrace_cons_data]
          cases hsegs : ofTrace marked with
          | nil => exact ⟨hfst, trivial⟩
          | cons g segs =>
              rw [hsegs] at ih
              cases g with
              | code step =>
                  refine ⟨hfst, ?_⟩
                  simpa [extent, Step.extent] using ih
              | data first more =>
                  refine ⟨hfst, ?_⟩
                  have := ih.2
                  simp only [extent, Step.extent, List.flatMap_cons,
                    List.length_append] at this ⊢
                  rw [← Nat.add_assoc]
                  exact this

theorem length_extent_pos (g : Segment) : 0 < g.extent.2.length := by
  cases g with
  | code s => exact Nat.succ_pos _
  | data first more => exact Nat.succ_pos _

theorem flatMap_extend (s : Step) (segs : List Segment) :
    (extend s segs).flatMap (fun g => g.extent.2) =
      s.bytes ++ segs.flatMap fun g => g.extent.2 := by
  cases segs with
  | nil => simp [extend, extent]
  | cons g segs => cases g <;> simp [extend, extent, Step.extent]

theorem flatMap_ofTrace (marked : List (Mode × Step)) :
    (ofTrace marked).flatMap (fun g => g.extent.2) =
      marked.flatMap fun m => m.2.bytes := by
  induction marked with
  | nil => rfl
  | cons m marked ih =>
      obtain ⟨mode, s⟩ := m
      cases mode with
      | code =>
          rw [ofTrace_cons_code, List.flatMap_cons, List.flatMap_cons, ih]
          rfl
      | data =>
          rw [ofTrace_cons_data, flatMap_extend, List.flatMap_cons, ih]

end Segment

theorem Step.isData_line (s : Step) : s.line.isData = false := by
  rw [Step.line]
  split <;> rfl

theorem Step.offset_line (s : Step) : s.line.offset = s.offset := by
  rw [Step.line]
  split <;> rfl

theorem Segment.offset_line (g : Segment) : g.line.offset = g.extent.1 := by
  cases g with
  | code s => exact s.offset_line
  | data first more => rfl

namespace Pass

/-- The lines to come when a run of data may be open in front of some
segments. -/
def pending : Option Region → List Segment → List Line
  | none, segs => segs.map Segment.line
  | some r, .data first more :: segs =>
      .data r.start (r.bytes.toList ++ (first :: more).flatMap Step.bytes) ::
        segs.map Segment.line
  | some r, segs => .ofRegion r :: segs.map Segment.line

theorem pending_nil (region : Option Region) :
    pending region [] = (region.map Line.ofRegion).toList := by
  cases region <;> rfl

theorem pending_code (region : Option Region) (s : Step)
    (segs : List Segment) :
    pending region (.code s :: segs) =
      (region.map Line.ofRegion).toList ++ s.line :: pending none segs := by
  cases region <;> rfl

theorem pending_absorb (region : Option Region) (s : Step)
    (segs : List Segment) :
    pending (some ((region.getD (Region.empty s.offset)).absorb
        s.insn.opcode s.pushed)) segs =
      pending region (Segment.extend s segs) := by
  rcases region with _ | r <;> rcases segs with _ | ⟨_ | _, segs⟩ <;>
    simp [pending, Segment.extend, Segment.line, Line.ofRegion, Region.empty,
      Step.bytes]

theorem lines_close (p : Pass) :
    p.close.lines.toList =
      p.lines.toList ++ (p.region.map Line.ofRegion).toList := by
  obtain ⟨mode, _ | r, lines, closed⟩ := p <;> simp [close]

theorem closed_close (p : Pass) :
    p.close.closed =
      p.closed + (p.region.map Line.ofRegion).toList.countP Line.isData := by
  obtain ⟨mode, _ | r, lines, closed⟩ := p <;>
    simp [close, Line.ofRegion, Line.isData]

theorem advance_of_code {p : Pass} {s : Step}
    (h : p.mode.entering s = .code) :
    p.advance s =
      ⟨.leaving s, none, p.close.lines.push s.line, p.close.closed⟩ := by
  rw [advance, h]
  obtain ⟨mode, _ | r, lines, closed⟩ := p <;> rfl

theorem advance_of_data {p : Pass} {s : Step}
    (h : p.mode.entering s = .data) :
    p.advance s =
      ⟨.data,
        some ((p.region.getD (Region.empty s.offset)).absorb
          s.insn.opcode s.pushed),
        p.lines, p.closed⟩ := by
  have hdata := Mode.eq_data_of_entering h
  rw [advance, h]
  obtain ⟨mode, _ | r, lines, closed⟩ := p <;> subst hdata <;> rfl

/-- From any state on, the pass writes the lines of the segments that are still to
come, and counts the runs of data among them. -/
theorem finish_foldl_advance (size : Nat) (steps : List Step) (p : Pass) :
    (steps.foldl advance p).finish size =
      ⟨size,
        p.lines.toList ++
          pending p.region (Segment.ofTrace (p.mode.trace steps)),
        p.closed +
          (pending p.region (Segment.ofTrace (p.mode.trace steps))).countP
            Line.isData⟩ := by
  induction steps generalizing p with
  | nil =>
      rw [Mode.trace_nil, Segment.ofTrace_nil, pending_nil, ← lines_close,
        ← closed_close]
      rfl
  | cons s steps ih =>
      rw [List.foldl_cons, ih, Mode.trace_cons]
      cases hmode : p.mode.entering s with
      | code =>
          rw [advance_of_code hmode, Mode.after_of_entering_code hmode,
            Segment.ofTrace_cons_code, pending_code, Array.toList_push,
            lines_close, closed_close]
          simp [Step.isData_line, Nat.add_assoc]
      | data =>
          rw [advance_of_data hmode, Mode.after_of_entering_data hmode,
            Segment.ofTrace_cons_data, pending_absorb]

end Pass

namespace Table

/-- What the lines of a listing are made of. -/
def segments (t : Table) (code : List UInt8) : List Segment :=
  Segment.ofTrace (Mode.code.trace (t.sweep code))

theorem listing_eq_segments (t : Table) (code : List UInt8) :
    t.listing code =
      ⟨code.length, (t.segments code).map Segment.line,
        ((t.segments code).map Segment.line).countP Line.isData⟩ := by
  rw [listing, Pass.finish_foldl_advance]
  simp [Pass.start, Pass.pending, segments]

theorem mem_sweep_of_mem_steps {t : Table} {code : List UInt8} {g : Segment}
    (hg : g ∈ t.segments code) {s : Step} (hs : s ∈ g.steps) :
    s ∈ t.sweep code := by
  have hsteps := Segment.flatMap_steps_ofTrace (Mode.code.trace (t.sweep code))
  rw [Mode.map_snd_trace] at hsteps
  rw [← hsteps]
  exact List.mem_flatMap.2 ⟨g, hg, hs⟩

theorem lines_listing (t : Table) (code : List UInt8) :
    (t.listing code).lines = (t.segments code).map Segment.line := by
  rw [listing_eq_segments]

theorem Lawful.consecutive_segments {t : Table} (ht : t.Lawful)
    (code : List UInt8) :
    Consecutive 0 ((t.segments code).map Segment.extent) := by
  apply Segment.consecutive_ofTrace
  have hsteps := ht.consecutive_steps 0 code
  rw [← sweep_eq_steps, ← Mode.map_snd_trace .code (t.sweep code),
    List.map_map] at hsteps
  exact hsteps

theorem Lawful.pairwise_segments {t : Table} (ht : t.Lawful)
    (code : List UInt8) :
    (t.segments code).Pairwise fun g g' =>
      g.extent.1 + g.extent.2.length ≤ g'.extent.1 :=
  List.pairwise_map.1 (ht.consecutive_segments code).pairwise

/-- Two segments of a lawful table have no byte in common. -/
theorem Lawful.disjoint_segments {t : Table} (ht : t.Lawful) {code : List UInt8}
    {g g' : Segment} (hg : g ∈ t.segments code) (hg' : g' ∈ t.segments code)
    (hne : g ≠ g') :
    g.extent.1 + g.extent.2.length ≤ g'.extent.1 ∨
      g'.extent.1 + g'.extent.2.length ≤ g.extent.1 := by
  have hsymm : Std.Symm fun g g' : Segment =>
      g.extent.1 + g.extent.2.length ≤ g'.extent.1 ∨
        g'.extent.1 + g'.extent.2.length ≤ g.extent.1 :=
    ⟨fun _ _ => Or.symm⟩
  have hpairs : (t.segments code).Pairwise fun g g' =>
      g.extent.1 + g.extent.2.length ≤ g'.extent.1 ∨
        g'.extent.1 + g'.extent.2.length ≤ g.extent.1 :=
    (ht.pairwise_segments code).imp fun h => Or.inl h
  exact hpairs.forall hg hg' hne

/-- The segments of a lawful table that reports the bytes themselves make up the
code. -/
theorem Lawful.flatMap_segments {t : Table} (ht : t.Lawful)
    (hop : ∀ b, (t b).opcode = b) (code : List UInt8) :
    (t.segments code).flatMap (fun g => g.extent.2) = code := by
  have hsteps := ht.flatMap_bytes_steps hop 0 code
  rw [← sweep_eq_steps, ← Mode.map_snd_trace .code (t.sweep code),
    List.flatMap_map] at hsteps
  rw [Table.segments, Segment.flatMap_ofTrace]
  exact hsteps

end Table

theorem lines_disassemble (code : List UInt8) :
    (disassemble code).lines =
      (Table.evm.segments code).map Segment.line :=
  Table.evm.lines_listing code

end BytecodeListing
