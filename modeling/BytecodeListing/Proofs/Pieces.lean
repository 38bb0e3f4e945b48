import BytecodeListing.Program.Shell
import Mathlib.Data.List.Basic

/-!
# Pieces of an input

An input is cut behind every newline. The pieces are put together to the input again
(`flatten_pieces`), and any pieces of this form are those of the input they are put
together to (`Cut.pieces_flatten`). The lines of the shell are the pieces without their
line ends (`lines_eq`).
-/

namespace BytecodeListing

namespace Shell

/-- The pieces of an input, which is cut behind every newline. What follows the last
newline is a piece if it is not empty. -/
def pieces : List UInt8 → List (List UInt8)
  | [] => []
  | b :: rest =>
      if b = newline then [b] :: pieces rest
      else
        match pieces rest with
        | [] => [[b]]
        | piece :: more => (b :: piece) :: more

/-- A piece without the line end, which is a newline with or without a carriage return in
front of it. -/
def strip (piece : List UInt8) : List UInt8 :=
  if [0x0d, newline] <:+ piece then piece.dropLast.dropLast
  else if [newline] <:+ piece then piece.dropLast
  else piece

/-- Pieces of some input: each is a line with its newline, which only the last may lack. -/
inductive Cut : List (List UInt8) → Prop
  | nil : Cut []
  | last {line : List UInt8} : line ≠ [] → newline ∉ line → Cut [line]
  | cons {line : List UInt8} {ps : List (List UInt8)} :
      newline ∉ line → Cut ps → Cut ((line ++ [newline]) :: ps)

section Pieces

variable {line rest : List UInt8}

theorem pieces_of_not_mem (hne : line ≠ []) (h : newline ∉ line) : pieces line = [line] := by
  induction line with
  | nil => exact absurd rfl hne
  | cons b line ih =>
      rw [List.mem_cons, not_or] at h
      rw [pieces, if_neg (Ne.symm h.1)]
      cases line with
      | nil => rfl
      | cons c line => rw [ih (List.cons_ne_nil c line) h.2]

theorem pieces_line_append (h : newline ∉ line) :
    pieces (line ++ newline :: rest) = (line ++ [newline]) :: pieces rest := by
  induction line with
  | nil => rw [List.nil_append, pieces, if_pos rfl, List.nil_append]
  | cons b line ih =>
      rw [List.mem_cons, not_or] at h
      rw [List.cons_append, pieces, if_neg (Ne.symm h.1), ih h.2]
      rfl

theorem cut_pieces (input : List UInt8) : Cut (pieces input) := by
  induction input with
  | nil => exact .nil
  | cons b rest ih =>
      rw [pieces]
      split
      · next hb =>
          rw [hb]
          exact .cons List.not_mem_nil ih
      · next hb =>
          generalize pieces rest = ps at ih
          cases ih with
          | nil => exact .last (List.cons_ne_nil b []) (by simpa using Ne.symm hb)
          | last _ hline =>
              exact .last (List.cons_ne_nil b _)
                (List.not_mem_cons_of_ne_of_not_mem (Ne.symm hb) hline)
          | cons hline hcut =>
              exact .cons (List.not_mem_cons_of_ne_of_not_mem (Ne.symm hb) hline) hcut

@[simp] theorem flatten_pieces (input : List UInt8) : (pieces input).flatten = input := by
  induction input with
  | nil => rfl
  | cons b rest ih =>
      rw [pieces]
      split
      · rw [List.flatten_cons, ih]
        rfl
      · cases hrest : pieces rest with
        | nil => rw [← ih, hrest]; rfl
        | cons piece more => rw [← ih, hrest]; rfl

end Pieces

namespace Cut

variable {ps front back : List (List UInt8)} {piece : List UInt8}

theorem pieces_flatten (h : Cut ps) : pieces ps.flatten = ps := by
  induction h with
  | nil => rfl
  | last hne hline => rw [List.flatten_singleton, pieces_of_not_mem hne hline]
  | cons hline _ ih =>
      rw [List.flatten_cons, List.append_assoc, List.singleton_append, pieces_line_append hline,
        ih]

theorem tail (h : Cut (piece :: ps)) : Cut ps := by
  cases h with
  | last => exact .nil
  | cons _ hps => exact hps

/-- Only the last piece may lack its newline. -/
theorem exists_line (h : Cut (piece :: ps)) (hne : ps ≠ []) :
    ∃ line, newline ∉ line ∧ piece = line ++ [newline] := by
  cases h with
  | last => exact absurd rfl hne
  | cons hline _ => exact ⟨_, hline, rfl⟩

theorem erase (h : Cut (front ++ piece :: back)) : Cut (front ++ back) := by
  induction front with
  | nil => exact h.tail
  | cons first front ih =>
      obtain ⟨line, hline, rfl⟩ := h.exists_line (by simp)
      exact .cons hline (ih h.tail)

/-- What follows a piece that is not the last is cut on its own. -/
theorem pieces_append (h : Cut (front ++ piece :: back)) (hback : back ≠ [])
    (rest : List UInt8) :
    pieces ((front ++ [piece]).flatten ++ rest) = front ++ piece :: pieces rest := by
  induction front with
  | nil =>
      obtain ⟨line, hline, rfl⟩ := h.exists_line hback
      simpa using pieces_line_append hline
  | cons first front ih =>
      obtain ⟨line, hline, rfl⟩ := h.exists_line (by simp)
      rw [List.cons_append, List.flatten_cons, List.append_assoc, List.append_assoc,
        List.singleton_append, pieces_line_append hline, ih h.tail, List.cons_append]

end Cut

section Lines

variable {line rest : List UInt8}

theorem strip_of_not_mem (h : newline ∉ line) : strip line = line := by
  have hend (ending : List UInt8) (hmem : newline ∈ ending) : ¬ ending <:+ line :=
    fun hsuffix => h (hsuffix.subset hmem)
  rw [strip, if_neg (hend _ (by simp)), if_neg (hend _ (by simp))]

theorem strip_concat (line : List UInt8) : strip (line ++ [newline]) = chomp line := by
  have hreturn : [0x0d, newline] <:+ line ++ [newline] ↔ line.getLast? = some 0x0d := by
    rw [List.getLast?_eq_some_iff]
    constructor
    · rintro ⟨before, hbefore⟩
      exact ⟨before, List.append_cancel_right (by simpa using hbefore.symm)⟩
    · rintro ⟨before, rfl⟩
      exact ⟨before, by simp⟩
  rw [strip, chomp, if_pos (List.suffix_append line [newline]), List.dropLast_concat]
  exact if_congr hreturn rfl rfl

theorem lines_of_not_mem (hne : line ≠ []) (h : newline ∉ line) : lines line = [line] := by
  rw [lines, List.splitOn_eq_singleton h]
  simp [hne]

theorem lines_append (h : newline ∉ line) :
    lines (line ++ newline :: rest) = chomp line :: lines rest := by
  have hne : rest.splitOn newline ≠ [] := List.splitOn_ne_nil newline rest
  rw [lines, lines, List.splitOn_append_cons_self_of_not_mem h]
  rw [List.dropLast_cons_of_ne_nil hne, List.getLast?_cons_of_ne_nil hne]
  rfl

end Lines

/-- The lines of an input are its pieces without their line ends. -/
theorem lines_eq (input : List UInt8) : lines input = (pieces input).map strip := by
  have hlines {ps : List (List UInt8)} (h : Cut ps) : lines ps.flatten = ps.map strip := by
    induction h with
    | nil => rfl
    | last hne hline =>
        rw [List.flatten_singleton, lines_of_not_mem hne hline, List.map_singleton,
          strip_of_not_mem hline]
    | cons hline _ ih =>
        rw [List.flatten_cons, List.append_assoc, List.singleton_append, lines_append hline, ih,
          List.map_cons, strip_concat]
  simpa using hlines (cut_pieces input)

end Shell

end BytecodeListing
