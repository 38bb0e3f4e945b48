import BytecodeListing.Machine.Table

/-!
# The linear sweep

The sweep reads a code from its first byte to its last, one instruction after
the other, and gives the instructions as a list of steps. Every reader of a code
works on the same steps.

`sweepFrom` collects the steps in an array, so that a long code needs no deep
recursion. The equations to reason with are `sweepFrom_of_atEnd` and
`toList_sweepFrom_of_not_atEnd`, which give the steps as a list.
-/

namespace BytecodeListing

/-- One step of the sweep. -/
structure Step where
  /-- Where the step starts. -/
  offset : Nat
  /-- The instruction that the table made of it. -/
  insn : Instruction
  /-- For a push, the bytes behind the opcode, as many as the instruction
  declares and the code holds. -/
  pushed : List UInt8
  deriving DecidableEq, Repr

namespace Step

/-- The first number that no longer fits a machine word. -/
def wordLimit : Nat := 0x10000000000000000

/-- Why a step cannot be listed. -/
inductive Fault where
  /-- The instruction was reported at another place than the one it was read
  from. -/
  | misplaced (offset reported : Nat)
  /-- The end of the operand is no machine word. -/
  | unbounded (offset width : Nat)
  deriving DecidableEq, Repr

/-- What is wrong with a step, if anything is. -/
def fault? (s : Step) : Option Fault :=
  if s.insn.offset ≠ s.offset then
    some (.misplaced s.offset s.insn.offset)
  else if s.insn.isPush ∧ wordLimit ≤ s.offset + 1 + s.insn.width then
    some (.unbounded s.offset s.insn.width)
  else
    none

end Step

namespace Table

/-- The step at a cursor that is not at the end. -/
def step (t : Table) (c : Cursor) : Step :=
  let insn := (t.decode c).1
  { offset := c.pc
    insn := insn
    pushed := if insn.isPush then (c.rest.drop 1).take insn.width else [] }

/-- The steps from a cursor on, behind those already made. -/
def sweepFrom (t : Table) (c : Cursor) (made : Array Step) : Array Step :=
  if h : c.atEnd then
    made
  else
    have := t.length_rest_decode_lt (c := c) (by simpa using h)
    sweepFrom t (t.decode c).2 (made.push (t.step c))
termination_by c.rest.length

/-- The steps of a whole code. -/
def sweep (t : Table) (code : List UInt8) : List Step :=
  (t.sweepFrom (Cursor.start code) #[]).toList

theorem sweepFrom_of_atEnd (t : Table) {c : Cursor} (h : c.rest = [])
    (made : Array Step) : t.sweepFrom c made = made := by
  rw [sweepFrom]
  simp [h]

theorem sweepFrom_of_not_atEnd (t : Table) {c : Cursor} (h : c.rest ≠ [])
    (made : Array Step) :
    t.sweepFrom c made =
      t.sweepFrom (t.decode c).2 (made.push (t.step c)) := by
  rw [sweepFrom]
  simp [h]

/-- The steps made before stay in front. -/
theorem sweepFrom_eq_append (t : Table) (c : Cursor) (made : Array Step) :
    t.sweepFrom c made = made ++ t.sweepFrom c #[] := by
  by_cases h : c.rest = []
  · rw [sweepFrom_of_atEnd t h, sweepFrom_of_atEnd t h, Array.append_empty]
  · rw [sweepFrom_of_not_atEnd t h, sweepFrom_of_not_atEnd t h,
      sweepFrom_eq_append t _ (made.push _),
      sweepFrom_eq_append t _ (#[].push _)]
    simp
termination_by c.rest.length
decreasing_by all_goals exact t.length_rest_decode_lt h

/-- The sweep from a cursor that is not at the end is one step and the sweep
from behind it. -/
theorem toList_sweepFrom_of_not_atEnd (t : Table) {c : Cursor}
    (h : c.rest ≠ []) :
    (t.sweepFrom c #[]).toList =
      t.step c :: (t.sweepFrom (t.decode c).2 #[]).toList := by
  rw [sweepFrom_of_not_atEnd t h, sweepFrom_eq_append]
  simp

end Table

end BytecodeListing
