import BytecodeListing.Proofs.Runs
import BytecodeListing.Proofs.Traces

/-!
# Arguments that name nothing

An argument that names nothing is read as a bytecode itself. It is looked up after the log
has been started, and starting the log makes directories, moves generations and may create
a file. So an argument that named nothing before can have come to name something, and then
it is read as a file, be it the log itself (`code_read_from_own_log`). Otherwise the log has
no part in what the argument means: it is read as a bytecode unless the way along it, in the
tree as it was, comes to one of the few locations that starting the log has changed
(`code_literal_unless_log_in_its_way`).
-/

namespace BytecodeListing

namespace Program

/-- The argument has been read as a bytecode itself: there is its listing, or a complaint
about what is wrong with it. -/
structure TakenLiterally (arg : String) (config : Config) (outcome : Outcome) : Prop where
  listing : ∀ code, Source.parse arg = .ok code →
    Event.stdout outcome.events = "\n".intercalate (disassemble code).render ++ "\n" ∧
      Event.complaints config.logging.console outcome.events = [] ∧ outcome.exitCode = 0
  complaint : ∀ fault, Source.parse arg = .error fault →
    (∃ cause, fault = .malformed cause) ∧ Event.stdout outcome.events = "" ∧
      Event.complaints config.logging.console outcome.events =
        ["Error: " ++ fault.message] ∧
      outcome.exitCode = 65

section Literal

variable {t t' : Tree} {arg : String} {config : Config} {file : Path}

/-- The result of listing an argument that names nothing. -/
theorem perform_listCode_of_absent (h : t.kind? ⟨arg⟩ = none) :
    (t.perform (listCode arg)).1 =
      match Source.parse arg with
      | .ok code =>
          ([.log (.disassembled (disassemble code)),
            .print ("\n".intercalate (disassemble code).render)], 0)
      | .error fault =>
          ([.log (.notLoaded fault.message), .complain ("Error: " ++ fault.message)],
            fault.exitCode) := by
  rw [listCode, Tree.perform_bind, Source.list, Tree.perform_bind,
    Source.perform_resolve_text h]
  cases Source.parse arg with
  | ok code => rfl
  | error fault => rfl

theorem takenLiterally_concluded (h : t.kind? ⟨arg⟩ = none) (config : Config) (file : Path) :
    TakenLiterally arg config (concluded config file (t.perform (listCode arg)).1) := by
  have hstdout (result : List Event × Nat) :
      Event.stdout (concluded config file result).events = Event.stdout result.1 :=
    (Event.shows_filter _ _).1
  have hcomplaints (result : List Event × Nat) :
      Event.complaints config.logging.console (concluded config file result).events =
        Event.complaints false result.1 :=
    Event.complaints_filter _ _ _
  constructor
  · intro code hcode
    rw [hstdout, hcomplaints, perform_listCode_of_absent h, hcode]
    exact ⟨by simp, rfl, rfl⟩
  · intro fault hfault
    obtain ⟨cause, rfl⟩ := Source.exists_malformed hfault
    rw [hstdout, hcomplaints, perform_listCode_of_absent h, hfault]
    exact ⟨⟨cause, rfl⟩, rfl, rfl, rfl⟩

end Literal

/-- Where the log goes does not change what an argument means that names nothing. Starting the
log changes a tree only where it makes a way for the log, where it creates the log and, if no
other log has been asked for, among the generations. An argument that looks at none of these
locations in the tree as it was is read as a bytecode; so is every argument that names nothing
when the log has been started. -/
theorem code_literal_unless_log_in_its_way {t t' : Tree} {args : List String}
    {config : Config} {arg : String} {file : Path}
    (hargs : CommandLine.parse args = .ok config) (htask : config.task = .list arg)
    (habsent : t.kind? ⟨arg⟩ = none)
    (hstart : t.perform (LogFile.start config.logging.file) = (.ok file, t')) :
    file = LogFile.path config.logging.file ∧
    (∀ o, t'.node? o ≠ t.node? o → LogFile.Leaves config.logging.file t t' o) ∧
    ∀ input, ∃ outcome, (t.perform (command args (pure input))).1 = .ok (config, outcome) ∧
      (TakenLiterally arg config outcome ∨
        t'.kind? ⟨arg⟩ ≠ none ∧ ∃ o, t.LooksAt ⟨arg⟩ o ∧ t'.node? o ≠ t.node? o) := by
  refine ⟨LogFile.file_of_prepare (LogFile.opened_of_start hstart).1,
    fun o => LogFile.leaves_of_start hstart,
    fun input => ⟨_, congrArg Prod.fst (perform_command_of_ok hargs input), ?_⟩⟩
  rw [perform_run_of_ok hstart, htask]
  by_cases hpresent : t'.kind? ⟨arg⟩ = none
  · exact .inl (takenLiterally_concluded hpresent config file)
  · refine .inr ⟨hpresent, ?_⟩
    by_contra hclear
    push Not at hclear
    exact hpresent ((Tree.kind?_congr (LogFile.home_of_start hstart) hclear).trans habsent)

/-- The log is in a directory that is made for it and has a name like the argument. -/
theorem code_literal_beside_its_log :
    ∃ outcome, ((Tree.bare []).perform
        (command ["--code", "5b", "--log-file=5b.d/5b"] (pure []))).1 =
          .ok (⟨.list "5b", { file := some ⟨"5b.d/5b"⟩ }⟩, outcome) ∧
      Event.stdout outcome.events = "0000: JUMPDEST\n" ∧ outcome.exitCode = 0 := by
  have hargs : CommandLine.parse ["--code", "5b", "--log-file=5b.d/5b"] =
      .ok ⟨.list "5b", { file := some ⟨"5b.d/5b"⟩ }⟩ := by
    decide +kernel
  have habsent : (Tree.bare []).kind? ⟨"5b"⟩ = none := by
    decide +kernel
  obtain ⟨-, -, hruns⟩ := code_literal_unless_log_in_its_way hargs rfl habsent rfl
  obtain ⟨outcome, hrun, hliteral | ⟨hpresent, -⟩⟩ := hruns []
  · obtain ⟨hstdout, -, hexit⟩ := hliteral.listing [0x5b] (by decide +kernel)
    exact ⟨outcome, hrun, hstdout.trans (by decide +kernel), hexit⟩
  · exact absurd (by decide +kernel) hpresent

/-- The argument `00` names nothing and is a bytecode, but it is read from the log of that
name, which is empty. -/
theorem code_read_from_own_log :
    CommandLine.parse ["--code", "00", "--log-file", "00"] =
        .ok ⟨.list "00", { file := some ⟨"00"⟩ }⟩ ∧
      (Tree.bare []).kind? ⟨"00"⟩ = none ∧
      ((Tree.bare []).perform (LogFile.start (some ⟨"00"⟩))).1 = .ok ⟨"00"⟩ ∧
      ∃ outcome, ((Tree.bare []).perform
          (command ["--code", "00", "--log-file", "00"] (pure []))).1 =
            .ok (⟨.list "00", { file := some ⟨"00"⟩ }⟩, outcome) ∧
        Event.stdout outcome.events = "\n" ∧
        ¬ TakenLiterally "00" ⟨.list "00", { file := some ⟨"00"⟩ }⟩ outcome := by
  have hargs : CommandLine.parse ["--code", "00", "--log-file", "00"] =
      .ok ⟨.list "00", { file := some ⟨"00"⟩ }⟩ := by
    decide +kernel
  have hstdout : Event.stdout ((Tree.bare []).perform
      (run ⟨.list "00", { file := some ⟨"00"⟩ }⟩ [])).1.events = "\n" := by
    decide +kernel
  refine ⟨hargs, by decide +kernel, by decide +kernel, _,
    congrArg Prod.fst (perform_command_of_ok hargs []), hstdout, fun hliteral => ?_⟩
  have hlisting := (hliteral.listing [0x00] (by decide +kernel)).1
  rw [hstdout] at hlisting
  exact absurd hlisting (by decide +kernel)

end Program

end BytecodeListing
