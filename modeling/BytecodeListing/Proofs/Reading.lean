import BytecodeListing.Proofs.Offsets

/-!
# Runs of a cursor

A cursor is moved by reading, one byte, some bytes or one instruction of the EVM, and by
placing it anywhere. What each of these does is first said by position, in front of the end
and behind it: `next_of_getElem?` and `next_of_le`, `take_eq`, and for an instruction
`decode_of_getElem?` and `decode_of_le`.

The invariant of a run that only reads is one of prefixes. The bytes in front of the new
position are those in front of the old one and then those that were handed out
(`take_pc_read` for one move, `take_pc_run` for a run). It also holds for a cursor that was
placed behind the end, where the bytes in front of it are the whole code.
-/

namespace BytecodeListing

namespace Cursor

/-- One way to read on. -/
inductive Read where
  /-- One byte. -/
  | next
  /-- Up to `n` bytes. -/
  | take (n : UInt64)
  /-- One instruction of the EVM. -/
  | decode
  deriving DecidableEq, Repr

/-- One move of a cursor. -/
inductive Move where
  | read (r : Read)
  /-- The cursor is placed, behind the end of the code too. -/
  | seek (pc : UInt64)
  deriving DecidableEq, Repr

/-- What a move gives. -/
inductive Answer where
  | byte (b : Option UInt8)
  | bytes (bs : List UInt8)
  | insn (i : Instruction)
  /-- Nothing, the cursor has only been placed. -/
  | placed
  deriving DecidableEq, Repr

/-- The bytes that an answer hands out, of a code of `size` bytes. An instruction hands out
its opcode and its operand, unless it was made up at the end of the code. -/
def Answer.handed (size : Nat) : Answer → List UInt8
  | .byte b => b.toList
  | .bytes bs => bs
  | .insn i => if i.offset < size then i.opcode :: i.operand else []
  | .placed => []

/-- Reads on in one of the ways. -/
def read (c : Cursor) : Read → Answer × Cursor
  | .next => c.next.map .byte id
  | .take n => (c.take n.toNat).map .bytes id
  | .decode => (Table.evm.decode c).map .insn id

/-- Makes one move. -/
def perform (c : Cursor) : Move → Answer × Cursor
  | .read r => c.read r
  | .seek pc => (.placed, c.seek pc.toNat)

/-- Makes some moves: their answers in order, and the cursor behind them. -/
def run (c : Cursor) : List Move → List Answer × Cursor
  | [] => ([], c)
  | move :: moves => ((c.perform move).2.run moves).map ((c.perform move).1 :: ·) id

/-- A cursor is given by its code and its position. -/
theorem eq_of_pc_eq {c d : Cursor} (hcode : c.code = d.code) (hpc : c.pc = d.pc) : c = d := by
  obtain ⟨code, pc, rest, rfl⟩ := c
  obtain ⟨code', pc', rest', rfl⟩ := d
  obtain rfl : code = code' := hcode
  obtain rfl : pc = pc' := hpc
  rfl

section Positions

variable (c : Cursor)

@[simp] theorem code_seek (pc : Nat) : (c.seek pc).code = c.code := rfl

@[simp] theorem pc_seek (pc : Nat) : (c.seek pc).pc = pc := rfl

theorem rest_eq_nil_iff : c.rest = [] ↔ c.code.length ≤ c.pc := by
  rw [c.rest_eq, List.drop_eq_nil_iff]

/-- Up to `n` bytes are those between two positions, neither of which is behind the end. -/
theorem take_eq (n : Nat) :
    c.take n =
      (c.code.extract (min c.pc c.code.length) (min (min c.pc c.code.length + n) c.code.length),
        c.seek (min (min c.pc c.code.length + n) c.code.length)) := by
  have hend : min (c.pc + n) c.code.length =
      min (min c.pc c.code.length + n) c.code.length := by omega
  have hbytes : (c.take n).1 = slice c.code c.pc (c.pc + n) := by
    rw [fst_take, c.rest_eq, slice_add]
  rw [slice, hend] at hbytes
  refine Prod.ext hbytes (eq_of_pc_eq (c.code_take n) ?_)
  rcases Nat.lt_or_ge c.pc c.code.length with h | h
  · rw [pc_take_of_rest_ne_nil (mt c.rest_eq_nil_iff.1 (Nat.not_le.2 h)), c.rest_eq,
      List.length_take, List.length_drop, pc_seek]
    omega
  · rw [pc_take_of_rest_nil (c.rest_eq_nil_iff.2 h), pc_seek]
    omega

theorem pc_take_le (n : Nat) : (c.take n).2.pc ≤ c.code.length := by
  rw [take_eq, pc_seek]
  exact Nat.min_le_right _ _

end Positions

variable {c : Cursor}

theorem next_of_le (h : c.code.length ≤ c.pc) : c.next = (none, c) :=
  next_of_rest_nil (c.rest_eq_nil_iff.2 h)

theorem next_of_getElem? {b : UInt8} (h : c.code[c.pc]? = some b) :
    c.next = (some b, c.seek (c.pc + 1)) := by
  obtain ⟨hlt, hb⟩ := List.getElem?_eq_some_iff.1 h
  have hrest : c.rest = b :: c.code.drop (c.pc + 1) := by
    rw [c.rest_eq, List.drop_eq_getElem_cons hlt, hb]
  exact Prod.ext (fst_next_of_rest_cons hrest)
    (eq_of_pc_eq c.code_next (pc_next_of_rest_cons hrest))

end Cursor

namespace Table

variable (t : Table) {c : Cursor}

/-- Behind the code the instruction of a zero byte is made up, and the cursor is taken back
to the end. -/
theorem decode_of_le (h : c.code.length ≤ c.pc) :
    t.decode c =
      ({ offset := c.pc + (t 0).shift, opcode := (t 0).opcode, mnemonic := (t 0).mnemonic
         width := (t 0).width, isPush := (t 0).isPush, operand := [] },
        c.seek c.code.length) := by
  have htake : c.take (t 0).take = ([], c.seek c.code.length) := by
    rw [Cursor.take_eq, Nat.min_eq_right h, Nat.min_eq_right (Nat.le_add_right _ _),
      List.extract_eq_take_drop, Nat.sub_self, List.take_zero]
  simp only [decode, Cursor.next_of_le h, Option.getD_none, htake]

/-- In front of the end an instruction is a byte and then as many as its entry reads. -/
theorem decode_of_getElem? {b : UInt8} (h : c.code[c.pc]? = some b) :
    t.decode c =
      ({ offset := c.pc + (t b).shift, opcode := (t b).opcode, mnemonic := (t b).mnemonic
         width := (t b).width, isPush := (t b).isPush
         operand := ((c.seek (c.pc + 1)).take (t b).take).1 },
        ((c.seek (c.pc + 1)).take (t b).take).2) := by
  simp only [decode, Cursor.next_of_getElem? h, Option.getD_some]

end Table

namespace Cursor

section Takes

variable (c : Cursor)

theorem take_add (m n : Nat) :
    c.take (m + n) =
      ((c.take m).1 ++ ((c.take m).2.take n).1, ((c.take m).2.take n).2) := by
  refine Prod.ext ?_ (eq_of_pc_eq (by simp) ?_)
  · rw [fst_take, fst_take, fst_take, rest_take, List.take_add]
  · simp only [take_eq, code_seek, pc_seek]
    omega

/-- More bytes than the code has are as good as all of them. -/
theorem take_eq_take_of_length_le {m n : Nat} (hm : c.code.length ≤ m) (hn : c.code.length ≤ n) :
    c.take m = c.take n := by
  rw [take_eq, take_eq]
  have hend : min (min c.pc c.code.length + m) c.code.length =
      min (min c.pc c.code.length + n) c.code.length := by omega
  rw [hend]

end Takes

section Prefixes

variable (c : Cursor)

theorem take_pc_take (n : Nat) :
    c.code.take (c.take n).2.pc = c.code.take c.pc ++ (c.take n).1 := by
  rw [fst_take, c.rest_eq, ← List.take_add, take_eq, pc_seek, List.take_eq_take_iff]
  omega

/-- The bytes in front of a cursor that reads are those in front of it before and those it
hands out. -/
theorem take_pc_read (r : Read) :
    c.code.take (c.read r).2.pc =
      c.code.take c.pc ++ (c.read r).1.handed c.code.length := by
  cases r with
  | take n =>
      rw [read, Prod.map_fst, Prod.map_snd, Answer.handed]
      exact c.take_pc_take n.toNat
  | next =>
      cases h : c.code[c.pc]? with
      | none =>
          rw [read, next_of_le (List.getElem?_eq_none_iff.1 h)]
          simp [Answer.handed]
      | some b =>
          rw [read, next_of_getElem? h]
          simp [Answer.handed, List.take_add_one, h]
  | decode =>
      cases h : c.code[c.pc]? with
      | none =>
          have hend := List.getElem?_eq_none_iff.1 h
          rw [read, Table.evm.decode_of_le hend]
          simp [Answer.handed, Table.evm, List.take_of_length_le hend, Nat.not_lt.2 hend]
      | some b =>
          obtain ⟨hlt, -⟩ := List.getElem?_eq_some_iff.1 h
          have htake := (c.seek (c.pc + 1)).take_pc_take (Table.evm b).take
          rw [code_seek, pc_seek, List.take_add_one, h] at htake
          rw [read, Table.evm.decode_of_getElem? h]
          simpa [Answer.handed, Table.evm, hlt] using htake

theorem pc_read_le {c : Cursor} (h : c.pc ≤ c.code.length) (r : Read) :
    (c.read r).2.pc ≤ c.code.length := by
  cases r with
  | take n => exact c.pc_take_le n.toNat
  | next =>
      cases hb : c.code[c.pc]? with
      | none =>
          rw [read, next_of_le (List.getElem?_eq_none_iff.1 hb)]
          exact h
      | some b =>
          obtain ⟨hlt, -⟩ := List.getElem?_eq_some_iff.1 hb
          rw [read, next_of_getElem? hb]
          exact hlt
  | decode =>
      cases hb : c.code[c.pc]? with
      | none =>
          rw [read, Table.evm.decode_of_le (List.getElem?_eq_none_iff.1 hb)]
          exact Nat.le_refl _
      | some b =>
          rw [read, Table.evm.decode_of_getElem? hb]
          exact (c.seek (c.pc + 1)).pc_take_le (Table.evm b).take

end Prefixes

section Runs

variable (c : Cursor)

@[simp] theorem run_nil : c.run [] = ([], c) := rfl

theorem run_cons (move : Move) (moves : List Move) :
    c.run (move :: moves) =
      ((c.perform move).1 :: ((c.perform move).2.run moves).1,
        ((c.perform move).2.run moves).2) := rfl

@[simp] theorem code_perform (move : Move) : (c.perform move).2.code = c.code := by
  cases move with
  | seek pc => rfl
  | read r =>
      cases r with
      | next => exact c.code_next
      | take n => exact c.code_take n.toNat
      | decode => exact Table.evm.code_decode c

@[simp] theorem code_run (moves : List Move) : (c.run moves).2.code = c.code := by
  induction moves generalizing c with
  | nil => rfl
  | cons move moves ih => rw [run_cons, ih, code_perform]

/-- The bytes in front of a cursor behind a run of reads are those in front of it before
and those that were handed out. -/
theorem take_pc_run (reads : List Read) :
    c.code.take (c.run (reads.map .read)).2.pc =
      c.code.take c.pc ++
        (c.run (reads.map .read)).1.flatMap (Answer.handed c.code.length) := by
  induction reads generalizing c with
  | nil => simp
  | cons r reads ih =>
      have hcode : (c.perform (.read r)).2.code = c.code := c.code_perform (.read r)
      have hread : c.code.take (c.perform (.read r)).2.pc =
          c.code.take c.pc ++ (c.perform (.read r)).1.handed c.code.length := c.take_pc_read r
      have ih := ih (c.perform (.read r)).2
      rw [hcode, hread] at ih
      rw [List.map_cons, run_cons, ih, List.flatMap_cons, List.append_assoc]

variable {c}

theorem pc_run_le (h : c.pc ≤ c.code.length) (reads : List Read) :
    (c.run (reads.map .read)).2.pc ≤ c.code.length := by
  induction reads generalizing c with
  | nil => exact h
  | cons r reads ih =>
      have hread : (c.perform (.read r)).2.pc ≤ (c.perform (.read r)).2.code.length := by
        rw [code_perform]
        exact pc_read_le h r
      have hrest := ih hread
      rwa [code_perform] at hrest

/-- Reading does not go back: what was handed out is in front of the cursor. -/
theorem le_pc_run (h : c.pc ≤ c.code.length) (reads : List Read) :
    c.pc ≤ (c.run (reads.map .read)).2.pc := by
  have hlength := congrArg List.length (c.take_pc_run reads)
  have hle := pc_run_le h reads
  rw [List.length_append, List.length_take, List.length_take, Nat.min_eq_left hle,
    Nat.min_eq_left h] at hlength
  omega

end Runs

end Cursor

end BytecodeListing
