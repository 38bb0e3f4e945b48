import BytecodeListing.Proofs.Declared
import BytecodeListing.Proofs.Endings

/-!
# Every byte is accounted for

The offsets of two neighbouring lines tell how many bytes the first of them stands for,
and a run of data has to write as many. Its payload is put together from the opcodes
reported and the operands pushed, the buffer is not looked at again, so this rests on the
table: a lawful table reports one opcode for each byte read as such and pushes all the
operand bytes that are read.

The extents of the segments carry the proof. They follow one another from zero on, and
under a lawful table they have as many bytes as the code (`length_flatMap_segments`), so
the last one ends with the code and every other one where the next line starts
(`endOf_listing`).
-/

namespace BytecodeListing

/-- Where the next line starts, or the end of the code behind the last line. -/
def Listing.endOf (l : Listing) (i : Nat) : Nat :=
  (l.lines[i + 1]?.map Line.offset).getD l.size

/-- The bytes of an extent are those found at its offset in the bytes of all extents. -/
theorem Consecutive.snd_eq_take_drop {pc : Nat} {extents : List (Nat × List UInt8)}
    (h : Consecutive pc extents) {e : Nat × List UInt8} (he : e ∈ extents) :
    e.2 = ((extents.flatMap Prod.snd).drop (e.1 - pc)).take e.2.length := by
  obtain ⟨front, back, rfl⟩ := List.append_of_mem he
  rw [append_iff, consecutive_cons] at h
  rw [h.2.1, Nat.add_sub_cancel_left, List.flatMap_append, List.drop_left,
    List.flatMap_cons, List.take_left]

theorem Line.exists_text (line : Line) :
    ∃ body, line.text = Hex.ofOffset line.offset ++ ": ".toList ++ body := by
  cases line with
  | code o insn => exact ⟨insn.text, rfl⟩
  | truncated o width present =>
      refine ⟨"PUSH".toList ++ (toString width).toList ++ " 0x".toList ++
        Hex.ofBytes present ++ " # truncated".toList, ?_⟩
      simp [text, offset]
  | data o bytes =>
      refine ⟨"DATA 0x".toList ++ Hex.ofBytes bytes, ?_⟩
      simp [text, offset, Region.line]

namespace Table

namespace Lawful

variable {t : Table} {code : List UInt8}

theorem length_flatMap_segments (ht : t.Lawful) (code : List UInt8) :
    ((t.segments code).flatMap fun g => g.extent.2).length = code.length := by
  rw [segments, Segment.flatMap_ofTrace, ← ht.length_flatMap_bytes_steps 0 code,
    ← sweep_eq_steps, ← Mode.map_snd_trace .code (t.sweep code), List.flatMap_map,
    Mode.map_snd_trace]

theorem head?_offsets (ht : t.Lawful) (h : code ≠ []) :
    ((t.listing code).lines.map Line.offset).head? = some 0 := by
  have hbytes := ht.length_flatMap_segments code
  have hfirst := ht.consecutive_segments code
  rw [lines_listing]
  cases hsegs : t.segments code with
  | nil =>
      rw [hsegs] at hbytes
      exact absurd (List.length_eq_zero_iff.1 hbytes.symm) h
  | cons g segs =>
      rw [hsegs, List.map_cons, consecutive_cons] at hfirst
      rw [List.map_cons, List.map_cons, List.head?_cons, g.offset_line, hfirst.1]

theorem pairwise_offsets (ht : t.Lawful) (code : List UInt8) :
    ((t.listing code).lines.map Line.offset).Pairwise (· < ·) := by
  rw [lines_listing, List.map_map, List.pairwise_map]
  refine (ht.pairwise_segments code).imp ?_
  intro g g' h
  have hpos := g.length_extent_pos
  rw [Function.comp_apply, Function.comp_apply, g.offset_line, g'.offset_line]
  omega

/-- The line of a segment ends where the bytes of the segment do. -/
theorem endOf_listing (ht : t.Lawful) {i : Nat} {g : Segment}
    (hi : (t.segments code)[i]? = some g) :
    (t.listing code).endOf i = g.extent.1 + g.extent.2.length := by
  have hextent : ((t.segments code).map Segment.extent)[i]? = some g.extent := by
    rw [List.getElem?_map, hi, Option.map_some]
  have hnext := (ht.consecutive_segments code).fst_next hextent
  rw [List.flatMap_map, ht.length_flatMap_segments, Nat.zero_add, List.getElem?_map,
    Option.map_map] at hnext
  rw [← hnext, Listing.endOf, listing_eq_segments, List.getElem?_map, Option.map_map]
  congr 2
  funext g
  exact g.offset_line

theorem bytes_eq_slice (ht : t.Lawful) (hop : ∀ b, (t b).opcode = b) {g : Segment}
    (hg : g ∈ t.segments code) :
    g.extent.2 = slice code g.extent.1 (g.extent.1 + g.extent.2.length) := by
  have hbytes := (ht.consecutive_segments code).snd_eq_take_drop
    (List.mem_map_of_mem hg)
  rwa [List.flatMap_map, ht.flatMap_segments hop, Nat.sub_zero, ← slice_add] at hbytes

end Lawful

/-- A table in which one byte has an operand of two bytes and all others stand alone. -/
def oneWide : Table := fun b =>
  { mnemonic := "OP", opcode := b, width := if b = 1 then 2 else 0, isPush := b = 1 }

theorem lawful_oneWide : oneWide.Lawful where
  take_eq_width _ := rfl
  isPush_of_width_pos b h := by
    by_contra hb
    simp_all [oneWide]

/-- Under a lawful table the lines of a listing are found at growing offsets from zero on,
and a line of data writes bytes in two hexadecimal digits each, as many as there are up to the
next line. If the opcodes reported are the bytes themselves, it writes that part of the
code. -/
theorem listing?_accounts {t : Table} (ht : t.Lawful) {code : List UInt8}
    (hlist : ∀ i, ¬ t.Unlistable code i) :
    ∃ l, t.listing? code = .ok l ∧
      l.size = code.length ∧
      (∀ line ∈ l.lines,
        ∃ body, line.text = Hex.ofOffset line.offset ++ ": ".toList ++ body) ∧
      (code ≠ [] → (l.lines.map Line.offset).head? = some 0) ∧
      (l.lines.map Line.offset).Pairwise (· < ·) ∧
      ∀ i line, l.lines[i]? = some line → line.isData = true →
        ∃ bytes,
          line.text = Hex.ofOffset line.offset ++ ": DATA 0x".toList ++ Hex.ofBytes bytes ∧
          line.offset < l.endOf i ∧
          (Hex.ofBytes bytes).length = 2 * (l.endOf i - line.offset) ∧
          ((∀ b, (t b).opcode = b) → bytes = slice code line.offset (l.endOf i)) := by
  refine ⟨t.listing code, listing?_of_listable hlist, rfl, fun line _ => line.exists_text,
    ht.head?_offsets, ht.pairwise_offsets code, ?_⟩
  intro i line hline hdata
  rw [lines_listing, List.getElem?_map, Option.map_eq_some_iff] at hline
  obtain ⟨g, hg, rfl⟩ := hline
  cases g with
  | code s =>
      rw [Segment.line, s.isData_line] at hdata
      cases hdata
  | data first more =>
      have hpos := (Segment.data first more).length_extent_pos
      have hend := ht.endOf_listing hg
      rw [← (Segment.data first more).offset_line] at hend
      refine ⟨(Segment.data first more).extent.2, rfl, by omega, ?_, ?_⟩
      · rw [Hex.length_ofBytes]
        omega
      · intro hop
        rw [hend, (Segment.data first more).offset_line,
          ← ht.bytes_eq_slice hop (List.mem_of_getElem? hg)]

/-- The bytes `5b` of the operand open no code, so the run of data goes on to the third
of them. -/
theorem listing?_accounts_oneWide :
    oneWide.Lawful ∧ (∀ i, ¬ oneWide.Unlistable [0, 1, 0x5b, 0x5b, 0x5b] i) ∧
      ∃ l, oneWide.listing? [0, 1, 0x5b, 0x5b, 0x5b] = .ok l ∧
        l.lines.map Line.offset = [0, 1, 4] ∧
        (l.lines.map Line.offset).Pairwise (· < ·) ∧
        ∃ payload,
          l.lines[1]?.map Line.text =
            some (Hex.ofOffset 1 ++ ": DATA 0x".toList ++ payload) ∧
          payload.length = 2 * (4 - 1) ∧
          payload = Hex.ofBytes [1, 0x5b, 0x5b] := by
  have hlist : ∀ i, ¬ oneWide.Unlistable [0, 1, 0x5b, 0x5b, 0x5b] i := by
    refine not_unlistable (fun _ => rfl) fun b => ?_
    simp only [oneWide]
    split <;> decide
  have hlines : (oneWide.listing [0, 1, 0x5b, 0x5b, 0x5b]).lines =
      [ .code 0 ⟨0, 0, "OP", 0, false, []⟩,
        .data 1 [1, 0x5b, 0x5b],
        .code 4 ⟨4, 0x5b, "OP", 0, false, []⟩ ] := by
    rw [lines_listing, map_line_segments]
    decide
  obtain ⟨l, hl, -, -, -, hpairs, hdata⟩ := listing?_accounts lawful_oneWide hlist
  have hlisting : l = oneWide.listing [0, 1, 0x5b, 0x5b, 0x5b] := by
    rw [listing?_of_listable hlist, Except.ok.injEq] at hl
    exact hl.symm
  subst hlisting
  have hend : (oneWide.listing [0, 1, 0x5b, 0x5b, 0x5b]).endOf 1 = 4 := by
    rw [Listing.endOf, hlines]
    rfl
  obtain ⟨bytes, htext, -, hlength, hslice⟩ :=
    hdata 1 (.data 1 [1, 0x5b, 0x5b]) (by rw [hlines]; rfl) rfl
  rw [hend] at hlength hslice
  refine ⟨lawful_oneWide, hlist, _, hl, by rw [hlines]; rfl, hpairs, Hex.ofBytes bytes, ?_,
    hlength, congrArg Hex.ofBytes (hslice fun _ => rfl)⟩
  rw [hlines]
  exact congrArg some htext

end Table

end BytecodeListing
