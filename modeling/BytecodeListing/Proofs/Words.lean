import BytecodeListing.Proofs.Reading

/-!
# Reading in machine words

`WordCursor` is a cursor as a machine keeps it: its code fits a memory, and its position is a
machine word. What always goes through with numbers can fail with words. The sum of two words
may be no word, the difference of two bytes may be negative, and a slice may lie outside the
code. Only the sum that says where some bytes end stops at the largest word instead.

No run of such a cursor fails. `Tracks` says that a computation with words comes to the result
and the place of a computation with numbers. It goes through `bind` (`Tracks.bind`), so one
lemma for each way to read is enough for every run (`tracks_run`). What carries it is that a
byte is read only in front of the end, and that a memory ends below the largest word.

`Cursor.reads_lose_nothing` puts this beside what the runs of a cursor hand out.
-/

namespace BytecodeListing

namespace Word

/-- Why a computation with machine words fails. -/
inductive Fault where
  /-- The sum of two words is no word. -/
  | overflow (a b : UInt64)
  /-- The difference of two bytes is negative. -/
  | negative (a b : UInt8)
  /-- The second of two positions is in front of the first, or outside the code. -/
  | outside (first last : UInt64)
  deriving DecidableEq, Repr

/-- The sum of two words. -/
def add (a b : UInt64) : Except Fault UInt64 :=
  if a.toNat + b.toNat < Step.wordLimit then .ok (a + b) else .error (.overflow a b)

/-- The sum of two words, or the largest word if the sum is none. -/
def addSat (a b : UInt64) : UInt64 :=
  UInt64.ofNat (min (a.toNat + b.toNat) (Step.wordLimit - 1))

/-- The difference of two bytes. -/
def sub (a b : UInt8) : Except Fault UInt8 :=
  if b ≤ a then .ok (a - b) else .error (.negative a b)

/-- The bytes of a code between two positions. -/
def cut (code : List UInt8) (first last : UInt64) : Except Fault (List UInt8) :=
  if first ≤ last ∧ last.toNat ≤ code.length then
    .ok (code.extract first.toNat last.toNat)
  else
    .error (.outside first last)

/-- The number of operand bytes that follow an opcode. -/
def width (opcode : UInt8) : Except Fault UInt64 :=
  if Opcode.push0 < opcode ∧ opcode ≤ Opcode.push32 then
    (sub opcode Opcode.push0).map UInt8.toUInt64
  else
    .ok 0

theorem toNat_min (a b : UInt64) : (min a b).toNat = min a.toNat b.toNat := by
  have hmin : min a b = if a ≤ b then a else b := rfl
  by_cases h : a ≤ b
  · rw [hmin, if_pos h, Nat.min_eq_left (UInt64.le_iff_toNat_le.1 h)]
  · rw [hmin, if_neg h, Nat.min_eq_right (Nat.le_of_not_le (mt UInt64.le_iff_toNat_le.2 h))]

theorem toNat_addSat (a b : UInt64) :
    (addSat a b).toNat = min (a.toNat + b.toNat) (Step.wordLimit - 1) := by
  rw [addSat, UInt64.toNat_ofNat_of_lt']
  rw [UInt64.size, Step.wordLimit]
  omega

theorem cut_eq_ok {code : List UInt8} {first last : UInt64} (hle : first ≤ last)
    (hlast : last.toNat ≤ code.length) :
    cut code first last = .ok (code.extract first.toNat last.toNat) :=
  if_pos ⟨hle, hlast⟩

theorem exists_add {a b : UInt64} (h : a.toNat + b.toNat < Step.wordLimit) :
    ∃ sum, add a b = .ok sum ∧ sum.toNat = a.toNat + b.toNat := by
  refine ⟨a + b, if_pos h, ?_⟩
  rw [UInt64.toNat_add]
  exact Nat.mod_eq_of_lt h

/-- The width of an operand is found without a fault. -/
theorem exists_width (opcode : UInt8) :
    ∃ n, width opcode = .ok n ∧ n.toNat = Opcode.width opcode := by
  rw [width, Opcode.width]
  split
  · next h =>
      have hle : Opcode.push0 ≤ opcode := UInt8.le_of_lt h.1
      refine ⟨(opcode - Opcode.push0).toUInt64, by rw [sub, if_pos hle]; rfl, ?_⟩
      rw [if_pos ⟨hle, h.2⟩, UInt8.toNat_toUInt64, UInt8.toNat_sub_of_le _ _ hle]
  · next h =>
      refine ⟨0, rfl, ?_⟩
      split
      · next h' =>
          -- Only the PUSH without an operand is in one of the two ranges and not in the other.
          have heq : opcode = Opcode.push0 := by
            rcases UInt8.lt_or_eq_of_le h'.1 with hlt | heq
            · exact absurd ⟨hlt, h'.2⟩ h
            · exact heq.symm
          rw [heq]
          rfl
      · rfl

end Word

/-- A code that fits a memory: it has less than half as many bytes as there are words. -/
structure Buffer where
  bytes : List UInt8
  length_le : bytes.length ≤ 0x7fffffffffffffff

namespace Buffer

/-- The number of bytes. -/
def size (b : Buffer) : UInt64 :=
  UInt64.ofNat b.bytes.length

theorem length_lt (b : Buffer) : b.bytes.length < Step.wordLimit - 1 :=
  Nat.lt_of_le_of_lt b.length_le (by decide)

@[simp] theorem toNat_size (b : Buffer) : b.size.toNat = b.bytes.length := by
  rw [size, UInt64.toNat_ofNat_of_lt']
  exact Nat.lt_of_lt_of_le b.length_lt (Nat.sub_le _ _)

end Buffer

/-- A reading position in a memory. -/
structure WordCursor where
  buffer : Buffer
  pc : UInt64

namespace WordCursor

open Word (Fault)

/-- The cursor in front of the first byte. -/
def start (buffer : Buffer) : WordCursor :=
  ⟨buffer, 0⟩

/-- Reads one byte. At the end there is none, and the cursor stays. -/
def next (w : WordCursor) : Except Fault (Option UInt8 × WordCursor) :=
  match w.buffer.bytes[w.pc.toNat]? with
  | none => .ok (none, w)
  | some b => do
      let pc ← Word.add w.pc 1
      return (some b, { w with pc })

/-- Reads up to `n` bytes, fewer where the code ends. -/
def take (w : WordCursor) (n : UInt64) : Except Fault (List UInt8 × WordCursor) := do
  let first := min w.pc w.buffer.size
  let last := min (Word.addSat first n) w.buffer.size
  let bytes ← Word.cut w.buffer.bytes first last
  return (bytes, { w with pc := last })

/-- Reads one instruction of the EVM. -/
def decode (w : WordCursor) : Except Fault (Instruction × WordCursor) := do
  let (first, behind) ← w.next
  let opcode := first.getD Opcode.stop
  let width ← Word.width opcode
  let (operand, w') ← behind.take width
  return ({ offset := w.pc.toNat, opcode, mnemonic := (Table.evm opcode).mnemonic
            width := width.toNat, isPush := Opcode.isPush opcode, operand }, w')

/-- Makes one move. -/
def perform (w : WordCursor) : Cursor.Move → Except Fault (Cursor.Answer × WordCursor)
  | .read .next => return (← w.next).map .byte id
  | .read (.take n) => return (← w.take n).map .bytes id
  | .read .decode => return (← w.decode).map .insn id
  | .seek pc => return (.placed, { w with pc })

/-- Makes some moves: their answers in order, and the cursor behind them. -/
def run (w : WordCursor) : List Cursor.Move → Except Fault (List Cursor.Answer × WordCursor)
  | [] => return ([], w)
  | move :: moves => do
      let (answer, w') ← w.perform move
      return (← w'.run moves).map (answer :: ·) id

/-- The cursor at the same place of the same code. -/
def toCursor (w : WordCursor) : Cursor :=
  (Cursor.start w.buffer.bytes).seek w.pc.toNat

/-- A computation with words does not fail, and comes to the result and the place of a
computation with numbers. -/
def Tracks {α : Type} (x : Except Fault (α × WordCursor)) (y : α × Cursor) : Prop :=
  ∃ w, x = .ok (y.1, w) ∧ w.toCursor = y.2

theorem Tracks.pure {α : Type} {a : α} {w : WordCursor} {c : Cursor} (h : w.toCursor = c) :
    Tracks (Pure.pure (a, w)) (a, c) :=
  ⟨w, rfl, h⟩

theorem Tracks.bind {α β : Type} {x : Except Fault (α × WordCursor)} {y : α × Cursor}
    {f : α × WordCursor → Except Fault (β × WordCursor)} {z : β × Cursor}
    (h : Tracks x y) (hf : ∀ w, w.toCursor = y.2 → Tracks (f (y.1, w)) z) :
    Tracks (x >>= f) z := by
  obtain ⟨w, rfl, hw⟩ := h
  exact hf w hw

theorem tracks_next (w : WordCursor) : Tracks w.next w.toCursor.next := by
  rw [next]
  cases h : w.buffer.bytes[w.pc.toNat]? with
  | none =>
      rw [Cursor.next_of_le (c := w.toCursor) (List.getElem?_eq_none_iff.1 h)]
      exact .pure rfl
  | some b =>
      obtain ⟨hlt, -⟩ := List.getElem?_eq_some_iff.1 h
      have hlength := w.buffer.length_lt
      have hone : (1 : UInt64).toNat = 1 := rfl
      obtain ⟨pc, hadd, hpc⟩ := Word.exists_add (a := w.pc) (b := 1) (by omega)
      rw [Cursor.next_of_getElem? (c := w.toCursor) h, hadd]
      refine .pure ?_
      rw [toCursor, hpc]
      rfl

theorem tracks_take (w : WordCursor) (n : UInt64) :
    Tracks (w.take n) (w.toCursor.take n.toNat) := by
  have hlength := w.buffer.length_lt
  have hfirst : (min w.pc w.buffer.size).toNat = min w.pc.toNat w.buffer.bytes.length := by
    rw [Word.toNat_min, Buffer.toNat_size]
  have hlast : (min (Word.addSat (min w.pc w.buffer.size) n) w.buffer.size).toNat =
      min (min w.pc.toNat w.buffer.bytes.length + n.toNat) w.buffer.bytes.length := by
    -- The sum stops at a word that is behind the end anyway.
    rw [Word.toNat_min, Word.toNat_addSat, hfirst, Buffer.toNat_size]
    omega
  rw [take, Word.cut_eq_ok (by rw [UInt64.le_iff_toNat_le, hfirst, hlast]; omega)
    (by rw [hlast]; omega), Cursor.take_eq, hfirst, hlast]
  refine .pure ?_
  rw [toCursor, hlast]
  rfl

theorem tracks_decode (w : WordCursor) : Tracks w.decode (Table.evm.decode w.toCursor) := by
  refine w.tracks_next.bind fun behind hbehind => ?_
  obtain ⟨width, hwidth, hn⟩ := Word.exists_width (w.toCursor.next.1.getD Opcode.stop)
  have htake := behind.tracks_take width
  rw [hbehind, hn] at htake
  dsimp only
  rw [hwidth]
  change Tracks (behind.take width >>= _) _
  refine htake.bind fun w' hw' => ?_
  rw [hn]
  exact .pure hw'

theorem tracks_perform (w : WordCursor) (move : Cursor.Move) :
    Tracks (w.perform move) (w.toCursor.perform move) := by
  cases move with
  | seek pc => exact .pure rfl
  | read r =>
      cases r with
      | next => exact w.tracks_next.bind fun _ => .pure
      | take n => exact (w.tracks_take n).bind fun _ => .pure
      | decode => exact w.tracks_decode.bind fun _ => .pure

theorem tracks_run (w : WordCursor) (moves : List Cursor.Move) :
    Tracks (w.run moves) (w.toCursor.run moves) := by
  induction moves generalizing w with
  | nil => exact .pure rfl
  | cons move moves ih =>
      refine (w.tracks_perform move).bind fun w' hw' => ?_
      have hrest := ih w'
      rw [hw'] at hrest
      exact hrest.bind fun _ => .pure

end WordCursor

namespace Cursor

/-- Two reads of some bytes are one read of as many bytes as both, also where that number
is no machine word. -/
theorem take_addSat {c : Cursor} (h : c.code.length < Step.wordLimit) (m n : UInt64) :
    c.take (Word.addSat m n).toNat =
      ((c.take m.toNat).1 ++ ((c.take m.toNat).2.take n.toNat).1,
        ((c.take m.toNat).2.take n.toNat).2) := by
  rw [← take_add, Word.toNat_addSat]
  rcases Nat.lt_or_ge (m.toNat + n.toNat) Step.wordLimit with hlt | hge
  · rw [Nat.min_eq_left (Nat.le_sub_one_of_lt hlt)]
  · exact c.take_eq_take_of_length_le (by omega) (by omega)

/-- Reading from the front hands out the bytes of a code in order, none left out and none
twice, and goes neither back nor behind the end. At any place that a cursor comes to by
reading and by being placed, in front of the end or behind it, each way to read gives what
is there. Kept in machine words the cursor gives the same and comes to the same place,
without a fault. -/
theorem reads_lose_nothing (b : Buffer) :
    (∀ reads : List Read,
      let front := (start b.bytes).run (reads.map .read)
      front.1.flatMap (Answer.handed b.bytes.length) = b.bytes.take front.2.pc ∧
      front.2.pc ≤ b.bytes.length ∧
      ∀ more : List Read, front.2.pc ≤ (front.2.run (more.map .read)).2.pc) ∧
    ∀ moves : List Move,
      let c := ((start b.bytes).run moves).2
      (b.bytes.length ≤ c.pc →
        c.next = (none, c) ∧
        Table.evm.decode c =
          (⟨c.pc, Opcode.stop, "STOP", 0, false, []⟩, c.seek b.bytes.length)) ∧
      (∀ op, b.bytes[c.pc]? = some op →
        c.next = (some op, c.seek (c.pc + 1)) ∧
        Table.evm.decode c =
          (⟨c.pc, op, (Table.evm op).mnemonic, Opcode.width op, Opcode.isPush op,
            ((c.seek (c.pc + 1)).take (Opcode.width op)).1⟩,
            ((c.seek (c.pc + 1)).take (Opcode.width op)).2)) ∧
      (∀ n : UInt64,
        let first := min c.pc b.bytes.length
        let last := min (first + n.toNat) b.bytes.length
        c.take n.toNat = (b.bytes.extract first last, c.seek last)) ∧
      (∀ m n : UInt64,
        c.take (Word.addSat m n).toNat =
          ((c.take m.toNat).1 ++ ((c.take m.toNat).2.take n.toNat).1,
            ((c.take m.toNat).2.take n.toNat).2)) ∧
      ∃ w, (WordCursor.start b).run moves = .ok (((start b.bytes).run moves).1, w) ∧
        w.pc.toNat = c.pc := by
  refine ⟨fun reads => ?_, fun moves => ?_⟩
  · have hbytes := (start b.bytes).take_pc_run reads
    have hle := pc_run_le (c := start b.bytes) (Nat.zero_le _) reads
    refine ⟨hbytes.symm, hle, le_pc_run ?_⟩
    rwa [code_run]
  · intro c
    obtain ⟨w, hrun, hw⟩ := (WordCursor.start b).tracks_run moves
    have hpc : w.pc.toNat = c.pc := congrArg pc hw
    have hcode : c.code = b.bytes := code_run _ moves
    have hlength : c.code.length < Step.wordLimit := by
      rw [hcode]
      exact Nat.lt_of_lt_of_le b.length_lt (Nat.sub_le _ _)
    clear_value c
    refine ⟨fun h => ?_, fun op h => ?_, fun n => ?_, take_addSat hlength, w, hrun, hpc⟩
    · rw [← hcode] at h ⊢
      exact ⟨next_of_le h, Table.evm.decode_of_le h⟩
    · rw [← hcode] at h
      exact ⟨next_of_getElem? h, Table.evm.decode_of_getElem? h⟩
    · rw [← hcode]
      exact c.take_eq n.toNat

/-- Far behind the end, where one more byte would be no machine word, there is nothing to
read, and a STOP is made up. -/
theorem reads_lose_nothing_farBehind :
    let c := ((start [0x61, 0x5b]).run [.read .decode, .seek 0xffffffffffffffff]).2
    2 ≤ c.pc ∧ c.next = (none, c) ∧
      Table.evm.decode c =
        (⟨0xffffffffffffffff, Opcode.stop, "STOP", 0, false, []⟩, c.seek 2) := by
  have hplaces := (reads_lose_nothing ⟨[0x61, 0x5b], by decide⟩).2
    [.read .decode, .seek 0xffffffffffffffff]
  have hbehind : 2 ≤
      ((start [0x61, 0x5b]).run [.read .decode, .seek 0xffffffffffffffff]).2.pc := by decide
  exact ⟨hbehind, hplaces.1 hbehind⟩

end Cursor

end BytecodeListing
