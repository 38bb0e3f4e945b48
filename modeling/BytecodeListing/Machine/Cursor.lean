/-!
# Cursors

A cursor is a reading position in a byte sequence. It carries the bytes from its
position on beside the whole code, so that reading forward needs no indexing;
the field `rest_eq` ties the two. Reads never go past the end: `next` has no
byte to give there, and `take` hands out what is left and leaves the cursor at
the end, also when it was placed behind it.
-/

namespace BytecodeListing

/-- A reading position in a byte sequence. -/
structure Cursor where
  code : List UInt8
  pc : Nat
  /-- The bytes from the position on. -/
  rest : List UInt8
  rest_eq : rest = code.drop pc

namespace Cursor

/-- The cursor in front of the first byte. -/
def start (code : List UInt8) : Cursor :=
  ⟨code, 0, code, rfl⟩

/-- The cursor placed at any position, behind the end of the code too. -/
def seek (c : Cursor) (pc : Nat) : Cursor :=
  ⟨c.code, pc, c.code.drop pc, rfl⟩

/-- Whether there is nothing left to read. -/
def atEnd (c : Cursor) : Bool :=
  c.rest.isEmpty

/-- Reads one byte. At the end there is none, and the cursor stays. -/
def next (c : Cursor) : Option UInt8 × Cursor :=
  match h : c.rest with
  | [] => (none, c)
  | b :: rest =>
      (some b, ⟨c.code, c.pc + 1, rest, by
        have := c.rest_eq
        rw [← List.drop_drop, ← this, h, List.drop_one, List.tail_cons]⟩)

/-- Reads up to `n` bytes, fewer where the code ends. -/
def take (c : Cursor) (n : Nat) : List UInt8 × Cursor :=
  if c.rest.isEmpty then
    ([], ⟨c.code, c.code.length, [], by simp⟩)
  else
    let bytes := c.rest.take n
    (bytes, ⟨c.code, c.pc + bytes.length, c.rest.drop n, by
      rw [← List.drop_drop, ← c.rest_eq, List.length_take]
      rcases Nat.le_total n c.rest.length with h | h
      · rw [Nat.min_eq_left h]
      · rw [Nat.min_eq_right h, List.drop_of_length_le h,
          List.drop_of_length_le (Nat.le_refl _)]⟩)

@[simp] theorem code_start (code : List UInt8) : (start code).code = code := rfl

@[simp] theorem pc_start (code : List UInt8) : (start code).pc = 0 := rfl

@[simp] theorem rest_start (code : List UInt8) : (start code).rest = code := rfl

@[simp] theorem atEnd_iff {c : Cursor} : c.atEnd = true ↔ c.rest = [] := by
  simp [atEnd]

theorem next_of_rest_nil {c : Cursor} (h : c.rest = []) :
    c.next = (none, c) := by
  unfold next
  split <;> simp_all

theorem rest_next_of_rest_cons {c : Cursor} {b : UInt8} {r : List UInt8}
    (h : c.rest = b :: r) : c.next.2.rest = r := by
  unfold next
  split <;> simp_all

theorem fst_next_of_rest_cons {c : Cursor} {b : UInt8} {r : List UInt8}
    (h : c.rest = b :: r) : c.next.1 = some b := by
  unfold next
  split <;> simp_all

theorem pc_next_of_rest_cons {c : Cursor} {b : UInt8} {r : List UInt8}
    (h : c.rest = b :: r) : c.next.2.pc = c.pc + 1 := by
  unfold next
  split <;> simp_all

@[simp] theorem code_next (c : Cursor) : c.next.2.code = c.code := by
  unfold next
  split <;> rfl

@[simp] theorem code_take (c : Cursor) (n : Nat) :
    (c.take n).2.code = c.code := by
  unfold take
  split <;> rfl

@[simp] theorem fst_take (c : Cursor) (n : Nat) :
    (c.take n).1 = c.rest.take n := by
  unfold take
  split <;> simp_all

@[simp] theorem rest_take (c : Cursor) (n : Nat) :
    (c.take n).2.rest = c.rest.drop n := by
  unfold take
  split <;> simp_all

theorem pc_take_of_rest_ne_nil {c : Cursor} (h : c.rest ≠ []) (n : Nat) :
    (c.take n).2.pc = c.pc + (c.rest.take n).length := by
  unfold take
  simp [h]

theorem pc_take_of_rest_nil {c : Cursor} (h : c.rest = []) (n : Nat) :
    (c.take n).2.pc = c.code.length := by
  unfold take
  simp [h]

/-- A read after the first byte has been read leaves less than there was. -/
theorem length_rest_take_next_lt {c : Cursor} (h : c.rest ≠ []) (n : Nat) :
    (c.next.2.take n).2.rest.length < c.rest.length := by
  match hr : c.rest with
  | [] => exact absurd hr h
  | b :: r =>
      rw [rest_take, rest_next_of_rest_cons hr, List.length_drop,
        List.length_cons]
      omega

end Cursor

end BytecodeListing
