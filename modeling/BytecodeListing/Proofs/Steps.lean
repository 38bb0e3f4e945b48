import BytecodeListing.Listing.Sweep

/-!
# Steps without a cursor

`Table.steps t pc bytes` are the steps of the bytes that start at the offset
`pc`. It is the sweep with the cursor taken apart: only the position and the bytes
behind it matter, and no index into the whole code is needed. `sweep_eq_steps`
ties the two, so the sweep is reasoned about by recursion on the bytes.

An extent is an offset with the bytes found there. The extents of the steps of a
lawful table follow one another without a gap (`consecutive_steps`), and under a
table that keeps the bytes they make up the code (`flatMap_bytes_steps`).
-/

namespace BytecodeListing

namespace Table

/-- The step made of the byte `b` at the offset `pc` with `rest` behind it. -/
def stepOf (t : Table) (pc : Nat) (b : UInt8) (rest : List UInt8) : Step :=
  { offset := pc
    insn :=
      { offset := pc + (t b).shift
        opcode := (t b).opcode
        mnemonic := (t b).mnemonic
        width := (t b).width
        isPush := (t b).isPush
        operand := rest.take (t b).take }
    pushed := if (t b).isPush then rest.take (t b).width else [] }

/-- The steps of the bytes that start at the offset `pc`. -/
def steps (t : Table) (pc : Nat) : List UInt8 → List Step
  | [] => []
  | b :: rest =>
      t.stepOf pc b rest ::
        steps t (pc + 1 + (rest.take (t b).take).length) (rest.drop (t b).take)
termination_by bytes => bytes.length
decreasing_by
  rw [List.length_drop, List.length_cons]
  omega

@[simp] theorem steps_nil (t : Table) (pc : Nat) : t.steps pc [] = [] := by
  rw [steps]

theorem steps_cons (t : Table) (pc : Nat) (b : UInt8) (rest : List UInt8) :
    t.steps pc (b :: rest) =
      t.stepOf pc b rest ::
        t.steps (pc + 1 + (rest.take (t b).take).length)
          (rest.drop (t b).take) := by
  rw [steps]

@[simp] theorem opcode_stepOf (t : Table) (pc : Nat) (b : UInt8)
    (rest : List UInt8) :
    (t.stepOf pc b rest).insn.opcode = (t b).opcode := rfl

theorem rest_decode (t : Table) {c : Cursor} {b : UInt8} {r : List UInt8}
    (h : c.rest = b :: r) :
    (t.decode c).2.rest = r.drop (t b).take := by
  simp [decode, Cursor.fst_next_of_rest_cons h, Cursor.rest_next_of_rest_cons h]

theorem pc_decode (t : Table) {c : Cursor} {b : UInt8} {r : List UInt8}
    (h : c.rest = b :: r) :
    (t.decode c).2.pc = c.pc + 1 + (r.take (t b).take).length := by
  have hrest := Cursor.rest_next_of_rest_cons h
  have hpc := Cursor.pc_next_of_rest_cons h
  simp only [decode, Cursor.fst_next_of_rest_cons h, Option.getD_some]
  cases r with
  | nil =>
      -- The byte was the last one, so the position behind it is the length.
      have hdrop : c.code.drop c.pc = [b] := by rw [← c.rest_eq, h]
      have hlength := congrArg List.length hdrop
      rw [List.length_drop, List.length_singleton] at hlength
      rw [Cursor.pc_take_of_rest_nil hrest, Cursor.code_next, List.take_nil,
        List.length_nil]
      omega
  | cons b' r =>
      rw [Cursor.pc_take_of_rest_ne_nil (by rw [hrest]; simp), hrest, hpc]

theorem step_eq_stepOf (t : Table) {c : Cursor} {b : UInt8} {r : List UInt8}
    (h : c.rest = b :: r) : t.step c = t.stepOf c.pc b r := by
  simp [step, stepOf, decode, h, Cursor.fst_next_of_rest_cons h,
    Cursor.rest_next_of_rest_cons h]

theorem toList_sweepFrom (t : Table) (c : Cursor) :
    (t.sweepFrom c #[]).toList = t.steps c.pc c.rest := by
  cases h : c.rest with
  | nil => rw [sweepFrom_of_atEnd t h, steps_nil]
  | cons b r =>
      have hne : c.rest ≠ [] := by simp [h]
      have := t.length_rest_decode_lt hne
      rw [toList_sweepFrom_of_not_atEnd t hne, toList_sweepFrom t,
        step_eq_stepOf t h, pc_decode t h, rest_decode t h, steps_cons]
termination_by c.rest.length

theorem sweep_eq_steps (t : Table) (code : List UInt8) :
    t.sweep code = t.steps 0 code :=
  toList_sweepFrom t (Cursor.start code)

theorem exists_stepOf_of_mem_steps (t : Table) {pc : Nat} {bytes : List UInt8}
    {s : Step} (h : s ∈ t.steps pc bytes) :
    ∃ pc' b rest, s = t.stepOf pc' b rest := by
  fun_induction steps t pc bytes with
  | case1 pc => simp at h
  | case2 pc b rest ih =>
      rcases List.mem_cons.1 h with rfl | h
      · exact ⟨pc, b, rest, rfl⟩
      · exact ih h

end Table

/-- The bytes that a step adds to a run of data. -/
def Step.bytes (s : Step) : List UInt8 :=
  s.insn.opcode :: s.pushed

/-- Where a step is and what it adds to a run of data. -/
def Step.extent (s : Step) : Nat × List UInt8 :=
  (s.offset, s.bytes)

/-- The extents follow one another from the offset `pc` on without a gap. -/
def Consecutive : Nat → List (Nat × List UInt8) → Prop
  | _, [] => True
  | pc, e :: extents => e.1 = pc ∧ Consecutive (pc + e.2.length) extents

theorem consecutive_cons (pc : Nat) (e : Nat × List UInt8)
    (extents : List (Nat × List UInt8)) :
    Consecutive pc (e :: extents) ↔
      e.1 = pc ∧ Consecutive (pc + e.2.length) extents :=
  Iff.rfl

namespace Consecutive

/-- An extent starts behind the bytes of all those in front of it. -/
theorem fst_get {pc : Nat} {extents : List (Nat × List UInt8)}
    (h : Consecutive pc extents) (i : Fin extents.length) :
    (extents.get i).1 = pc + ((extents.take i).flatMap Prod.snd).length := by
  induction extents generalizing pc with
  | nil => exact i.elim0
  | cons e extents ih =>
      obtain ⟨hfst, hrest⟩ := h
      cases i using Fin.cases with
      | zero => exact hfst
      | succ j =>
          rw [List.get_cons_succ', ih hrest j, Fin.val_succ,
            List.take_succ_cons, List.flatMap_cons, List.length_append,
            Nat.add_assoc]

theorem le_fst {pc : Nat} {extents : List (Nat × List UInt8)}
    (h : Consecutive pc extents) {e : Nat × List UInt8} (he : e ∈ extents) :
    pc ≤ e.1 := by
  induction extents generalizing pc with
  | nil => cases he
  | cons first extents ih =>
      obtain ⟨hfst, hrest⟩ := h
      rcases List.mem_cons.1 he with rfl | he
      · exact Nat.le_of_eq hfst.symm
      · exact Nat.le_trans (Nat.le_add_right _ _) (ih hrest he)

theorem pairwise {pc : Nat} {extents : List (Nat × List UInt8)}
    (h : Consecutive pc extents) :
    extents.Pairwise fun e e' => e.1 + e.2.length ≤ e'.1 := by
  induction extents generalizing pc with
  | nil => exact List.Pairwise.nil
  | cons first extents ih =>
      obtain ⟨hfst, hrest⟩ := h
      refine List.Pairwise.cons ?_ (ih hrest)
      intro e he
      rw [hfst]
      exact le_fst hrest he

/-- Where the bytes of an extent end the next one starts, or all of them end. -/
theorem fst_next {pc : Nat} {extents : List (Nat × List UInt8)}
    (h : Consecutive pc extents) {i : Nat} {e : Nat × List UInt8}
    (he : extents[i]? = some e) :
    (extents[i + 1]?.map Prod.fst).getD
      (pc + (extents.flatMap Prod.snd).length) = e.1 + e.2.length := by
  induction extents generalizing pc i with
  | nil => cases he
  | cons first extents ih =>
      obtain ⟨hfst, hrest⟩ := h
      rw [List.flatMap_cons, List.length_append, ← Nat.add_assoc]
      cases i with
      | succ i => exact ih hrest he
      | zero =>
          obtain rfl := Option.some.inj he
          cases extents with
          | nil => simp [hfst]
          | cons next extents => simp [hfst, hrest.1]

end Consecutive

namespace Table

/-- A table that reads what it declares, and declares an operand for pushes
only. -/
structure Lawful (t : Table) : Prop where
  take_eq_width (b : UInt8) : (t b).take = (t b).width
  isPush_of_width_pos (b : UInt8) : 0 < (t b).width → (t b).isPush = true

theorem Lawful.pushed_stepOf {t : Table} (ht : t.Lawful) (pc : Nat) (b : UInt8)
    (rest : List UInt8) :
    (t.stepOf pc b rest).pushed = rest.take (t b).take := by
  simp only [stepOf, ht.take_eq_width b]
  split
  · rfl
  · next h =>
      have hzero : (t b).width = 0 := by
        rcases Nat.eq_zero_or_pos (t b).width with hz | hpos
        · exact hz
        · exact absurd (ht.isPush_of_width_pos b hpos) h
      rw [hzero, List.take_zero]

theorem Lawful.bytes_stepOf {t : Table} (ht : t.Lawful) (pc : Nat) (b : UInt8)
    (rest : List UInt8) :
    (t.stepOf pc b rest).bytes = (t b).opcode :: rest.take (t b).take := by
  rw [Step.bytes, ht.pushed_stepOf, opcode_stepOf]

theorem Lawful.consecutive_steps {t : Table} (ht : t.Lawful) (pc : Nat)
    (bytes : List UInt8) :
    Consecutive pc ((t.steps pc bytes).map Step.extent) := by
  fun_induction steps t pc bytes with
  | case1 pc => trivial
  | case2 pc b rest ih =>
      rw [List.map_cons, consecutive_cons]
      refine ⟨rfl, ?_⟩
      have hlength : pc + (t.stepOf pc b rest).extent.2.length =
          pc + 1 + (rest.take (t b).take).length := by
        rw [Step.extent, ht.bytes_stepOf, List.length_cons]
        omega
      rw [hlength]
      exact ih

theorem Lawful.flatMap_bytes_steps {t : Table} (ht : t.Lawful)
    (hop : ∀ b, (t b).opcode = b) (pc : Nat) (bytes : List UInt8) :
    (t.steps pc bytes).flatMap Step.bytes = bytes := by
  fun_induction steps t pc bytes with
  | case1 pc => rfl
  | case2 pc b rest ih =>
      rw [List.flatMap_cons, ih, ht.bytes_stepOf, hop, List.cons_append,
        List.take_append_drop]

theorem lawful_evm : evm.Lawful where
  take_eq_width _ := rfl
  isPush_of_width_pos b h := by
    simp only [evm, Opcode.width, Opcode.isPush] at h ⊢
    split at h
    · next hb => simpa using hb
    · cases h

end Table

end BytecodeListing
