import BytecodeListing.Program.Shell
import BytecodeListing.Proofs.Grammar

/-!
# Ways of giving bytecode

A bytecode is given by the text itself, by the path of a file that holds the text, or on
a line of the shell. The text is trimmed before it is read, and the shell trims a line
before that, which makes no difference (`parse_trim`). So the three ways agree, on the
bytes and on what is wrong with a text (`ways_agree`).
-/

namespace BytecodeListing

namespace Literal

/-- Trimming a text does not change what is read from it. -/
@[simp] theorem parse_trim (text : List Char) : parse (Text.trim text) = parse text := by
  rw [parse, parse, digits, digits, Text.trim_trim]

end Literal

namespace Source

theorem decode_toUTF8 (file : Path) (text : String) :
    decode file text.toUTF8 = .ok text := by
  have hdecode : String.fromUTF8? text.toUTF8 = some text := by
    rw [String.fromUTF8?, String.toUTF8_eq_toByteArray, dif_pos text.isValidUTF8]
    rfl
  rw [decode, hdecode]

/-- What an argument stands for in a tree, which it leaves as it is. -/
theorem perform_resolve (t : Tree) (arg : String) :
    t.perform (resolve arg) =
      (match t.kind? ⟨arg⟩ with
        | none => ([], parse arg)
        | some _ =>
            ([.readingFile arg],
              match t.read ⟨arg⟩ with
              | .error fault => .error (.unreadable ⟨arg⟩ fault)
              | .ok content => decode ⟨arg⟩ content >>= parse), t) := by
  rw [resolve, Tree.perform_bind, Tree.perform_kind?]
  cases t.kind? ⟨arg⟩ with
  | none => rfl
  | some kind =>
      dsimp only
      rw [Tree.perform_bind, Tree.perform_read]
      cases t.read ⟨arg⟩ with
      | error fault => rfl
      | ok content => rfl

section Resolve

variable {t : Tree} {p text : String} {loc : Location}

theorem perform_resolve_text (habsent : t.kind? ⟨text⟩ = none) :
    t.perform (resolve text) = (([], parse text), t) := by
  rw [perform_resolve, habsent]

theorem perform_resolve_file (hloc : t.resolve ⟨p⟩ = .ok loc)
    (hfile : t.node? loc = some (.file text.toUTF8)) :
    t.perform (resolve p) = (([.readingFile p], parse text), t) := by
  have hkind : t.kind? ⟨p⟩ = some (.file text.toUTF8.size) := by
    rw [Tree.kind?, hloc]
    simp only [hfile]
  have hread : t.read ⟨p⟩ = .ok text.toUTF8 := by
    rw [Tree.read, hloc]
    simp only [hfile]
  rw [perform_resolve, hkind, hread]
  simp only [decode_toUTF8]
  rfl

end Resolve

theorem exists_malformed {text : String} {fault : SourceFault}
    (h : parse text = .error fault) : ∃ cause, fault = .malformed cause := by
  rw [parse] at h
  cases hparse : Literal.parse text.toList with
  | ok code => rw [hparse] at h; cases h
  | error cause => rw [hparse] at h; cases h; exact ⟨cause, rfl⟩

end Source

namespace Shell

theorem mem_farewells {text : List Char} :
    text ∈ farewells ↔ text = "exit".toList ∨ text = "quit".toList := by
  simp [farewells]

/-- A line that is neither a farewell nor blank is read as the text of a bytecode. -/
theorem handle_eq (text : String) :
    handle text.toList =
      if Text.trim text.toList ∈ farewells then .ok .exit
      else if Text.trim text.toList = [] then .ok .skip
      else (Source.parse text).map fun code => .listing (disassemble code) := by
  rw [handle, Source.parse]
  simp only [Literal.parse_trim, List.contains_iff_mem, List.isEmpty_iff]
  cases Literal.parse text.toList <;> rfl

section Replies

variable {text : String}

theorem handle_eq_exit_iff :
    handle text.toList = .ok .exit ↔
      Text.trim text.toList = "exit".toList ∨ Text.trim text.toList = "quit".toList := by
  rw [handle_eq, ← mem_farewells]
  split
  · next hmem => simp [hmem]
  · next hmem =>
      split
      · simp [hmem]
      · cases Source.parse text <;> simp [hmem, Except.map]

theorem handle_eq_skip_iff :
    handle text.toList = .ok .skip ↔ Text.trim text.toList = [] := by
  rw [handle_eq]
  split
  · next hmem =>
      rw [mem_farewells] at hmem
      rcases hmem with hmem | hmem <;> simp [hmem]
  · split
    · next hempty => simp [hempty]
    · next hempty => cases Source.parse text <;> simp [hempty, Except.map]

end Replies

end Shell

/-- The ways of giving bytecode agree. A text that names nothing and a path that leads to
a file with the text are resolved to what the text is read as, which is bytes or a fault
of the text. A line of the shell with the text is a farewell, blank, or answered with the
listing of those bytes or with that fault. -/
theorem ways_agree (text : String) :
    (∀ (t : Tree) (p : String) (loc : Location), t.kind? ⟨text⟩ = none →
        t.resolve ⟨p⟩ = .ok loc → t.node? loc = some (.file text.toUTF8) →
        t.perform (Source.resolve p) = (([.readingFile p], Source.parse text), t) ∧
          t.perform (Source.resolve text) = (([], Source.parse text), t)) ∧
      (∀ fault, Source.parse text = .error fault → ∃ cause, fault = .malformed cause) ∧
      (Shell.handle text.toList = .ok .exit ↔
        Text.trim text.toList = "exit".toList ∨ Text.trim text.toList = "quit".toList) ∧
      (Shell.handle text.toList = .ok .skip ↔ Text.trim text.toList = []) ∧
      (Text.trim text.toList ∉ ["exit".toList, "quit".toList, []] →
        (∀ bytes, Source.parse text = .ok bytes →
          Shell.handle text.toList = .ok (.listing (disassemble bytes))) ∧
        ∀ fault, Source.parse text = .error fault →
          Shell.handle text.toList = .error fault) := by
  refine ⟨fun t p loc habsent hloc hfile => ⟨Source.perform_resolve_file hloc hfile,
    Source.perform_resolve_text habsent⟩, fun fault => Source.exists_malformed,
    Shell.handle_eq_exit_iff, Shell.handle_eq_skip_iff, fun hother => ?_⟩
  have hhandle := Shell.handle_eq text
  rw [if_neg fun hmem => hother (List.mem_append_left [[]] hmem),
    if_neg fun hempty => hother (by rw [hempty]; decide)] at hhandle
  constructor
  · intro bytes hparse
    rw [hhandle, hparse]
    rfl
  · intro fault hparse
    rw [hhandle, hparse]
    rfl

/-- A blank margin with a mark beside it and a wrapped byte, in a file behind a link. -/
theorem ways_agree_wrapped :
    ∃ t : Tree, t.kind? ⟨"\t0X60 5\nB\n"⟩ = none ∧
      t.perform (Source.resolve "l") = (([.readingFile "l"], .ok [0x60, 0x5b]), t) ∧
      t.perform (Source.resolve "\t0X60 5\nB\n") = (([], .ok [0x60, 0x5b]), t) ∧
      Shell.handle "\t0X60 5\nB\n".toList = .ok (.listing (disassemble [0x60, 0x5b])) := by
  obtain ⟨hresolve, -, -, -, hhandle⟩ := ways_agree "\t0X60 5\nB\n"
  have hparse : Source.parse "\t0X60 5\nB\n" = .ok [0x60, 0x5b] := by
    decide +kernel
  have habsent : (Tree.mk [(["f"], .file "\t0X60 5\nB\n".toUTF8), (["l"], .link ⟨"f"⟩)]
      []).kind? ⟨"\t0X60 5\nB\n"⟩ = none := by
    decide +kernel
  have hways := hresolve _ "l" ["f"] habsent (by decide +kernel) (by decide +kernel)
  rw [hparse] at hways
  exact ⟨_, habsent, hways.1, hways.2, (hhandle (by decide +kernel)).1 _ hparse⟩

end BytecodeListing
