import BytecodeListing.Proofs.Essentials
import BytecodeListing.Proofs.Runs

/-!
# Ways of logging

Two accepted command lines that differ in the level, the format and the console only have
the same task and the same log. The log is started alike, the task is performed on the same
tree, and what comes of it is filtered and written in the end. So the two runs differ in
nothing but the records that are shown and in what is added to the log
(`run_same_in_every_style`).
-/

namespace BytecodeListing

namespace Level

theorem admits_debug (level : Level) : debug.admits level = true := by
  cases level <;> rfl

end Level

namespace Event

/-- The records that are shown are those at or above the threshold. -/
theorem records_filter (level : Level) (events : List Event) :
    records (events.filter (shows level)) =
      (records events).filter fun r => level.admits r.level := by
  rw [records, records, List.filterMap_filter, List.filter_filterMap]
  congr 1
  funext e
  cases e with
  | print line => rfl
  | complain line => rfl
  | log r => by_cases h : level.admits r.level <;> simp [shows, record?, Option.filter, h]

end Event

namespace Program

/-- Two runs have the same result and leave the same tree, except for what they add to the
log: `started` is the tree in which the log has been opened. What they add are their records
if they end well, and those at a threshold are those at `debug` that are at or above it. -/
structure SameButForLog (logging logging' : Logging) (started : Tree)
    (run run' : Outcome × Tree) : Prop where
  exitCode : run.1.exitCode = run'.1.exitCode
  stdout : Event.stdout run.1.events = Event.stdout run'.1.events
  complaints : Event.complaints logging.console run.1.events =
    Event.complaints logging'.console run'.1.events
  log : run.1.log = run'.1.log
  unlogged : run.1.log = none → run.2 = run'.2
  logged : ∀ file, run.1.log = some file → ∃ loc content,
    started.node? loc = some (.file content) ∧
    run.2.Names file loc (content ++ run.1.bytes logging.format) ∧
    run'.2.Names file loc (content ++ run'.1.bytes logging'.format) ∧
    run.2.home = run'.2.home ∧ ∀ o, o ≠ loc → run.2.node? o = run'.2.node? o
  records : run.1.exitCode = 0 → logging'.level = .debug →
    run.1.written = run'.1.written.filter fun r => logging.level.admits r.level

section Runs

variable {t t₁ : Tree} {config config' : Config} {file : Path}

/-- At a threshold the records are those that are made, at or above it. -/
theorem written_concluded {result : List Event × Nat} (hzero : result.2 = 0) :
    (concluded config file result).written =
      (Event.records (.log .starting :: result.1)).filter fun r =>
        config.logging.level.admits r.level := by
  rw [Outcome.written, if_pos (show (concluded config file result).exitCode = 0 from hzero)]
  exact Event.records_filter _ _

theorem sameButForLog_of_error {fault : LogFault}
    (h : t.perform (LogFile.start config.logging.file) = (.error fault, t₁))
    (h' : t.perform (LogFile.start config'.logging.file) = (.error fault, t₁))
    (input : List UInt8) :
    SameButForLog config.logging config'.logging t₁ (t.perform (run config input))
      (t.perform (run config' input)) := by
  rw [perform_run_of_error h, perform_run_of_error h']
  exact {
    exitCode := rfl
    stdout := rfl
    complaints := rfl
    log := rfl
    unlogged := fun _ => rfl
    logged := by simp
    records := by simp }

theorem sameButForLog_of_names {loc : Location} {content : ByteArray}
    (htask : config'.task = config.task)
    (h : t.perform (LogFile.start config.logging.file) = (.ok file, t₁))
    (h' : t.perform (LogFile.start config'.logging.file) = (.ok file, t₁))
    (hnames : t₁.Names file loc content) (input : List UInt8) :
    SameButForLog config.logging config'.logging t₁ (t.perform (run config input))
      (t.perform (run config' input)) := by
  rw [perform_run_of_names h hnames, perform_run_of_names h' hnames, htask]
  -- Both runs make the same of the task, and filter it each in its own way.
  generalize (t₁.perform (perform config.task input)).1 = result
  exact {
    exitCode := rfl
    stdout := by
      rw [concluded, concluded, (Event.shows_filter _ _).1, (Event.shows_filter _ _).1]
    complaints := by
      rw [concluded, concluded, Event.complaints_filter, Event.complaints_filter]
    log := rfl
    unlogged := by simp [concluded]
    logged := by
      intro file' hfile
      cases hfile
      refine ⟨loc, content, hnames.node?, hnames.put _, hnames.put _, rfl, fun o ho => ?_⟩
      rw [Tree.node?_put t₁ hnames.ne_nil, Tree.node?_put t₁ hnames.ne_nil, if_neg ho,
        if_neg ho]
    records := by
      intro hzero hdebug
      rw [written_concluded hzero, written_concluded hzero, hdebug]
      simp [Level.admits_debug] }

end Runs

/-- A run does not depend on how it is logged: two accepted command lines that differ in the
level, the format and the console only come to the same, except for the log. -/
theorem run_same_in_every_style {t : Tree} (ht : t.Closed) {args args' : List String}
    {config config' : Config} (hargs : CommandLine.parse args = .ok config)
    (hargs' : CommandLine.parse args' = .ok config')
    (hsame : CommandLine.essentials args = CommandLine.essentials args')
    (input : List UInt8) :
    let done := t.perform (command args (pure input))
    let done' := t.perform (command args' (pure input))
    ∃ outcome outcome', done.1 = .ok (config, outcome) ∧ done'.1 = .ok (config', outcome') ∧
      SameButForLog config.logging config'.logging
        (t.perform (LogFile.start config.logging.file)).2 (outcome, done.2)
        (outcome', done'.2) := by
  intro done done'
  have hparse := CommandLine.parse_essentials hargs
  rw [hsame, CommandLine.parse_essentials hargs'] at hparse
  simp only [Except.ok.injEq, Config.mk.injEq, Logging.mk.injEq, true_and, and_true] at hparse
  obtain ⟨htask, hfile⟩ := hparse
  have hdone : done = _ := perform_command_of_ok hargs input
  have hdone' : done' = _ := perform_command_of_ok hargs' input
  rw [hdone, hdone']
  refine ⟨_, _, rfl, rfl, ?_⟩
  rcases hstart : t.perform (LogFile.start config.logging.file) with ⟨fault | file, t₁⟩
  · exact sameButForLog_of_error hstart (hfile ▸ hstart) input
  · obtain ⟨loc, content, hnames⟩ := LogFile.exists_names_of_start ht hstart
    exact sameButForLog_of_names htask hstart (hfile ▸ hstart) hnames input

/-- A session with a listing and a rejected line: at the usual threshold the rejection is the
only record. -/
theorem run_same_in_every_style_piped :
    ∃ outcome outcome',
      ((Tree.bare []).perform (command ["--shell"] (pure "5b\n0xf".toUTF8.data.toList))).1 =
        .ok (⟨.shell, {}⟩, outcome) ∧
      ((Tree.bare []).perform (command ["--log-level", "debug", "--shell", "--log-console"]
          (pure "5b\n0xf".toUTF8.data.toList))).1 =
        .ok (⟨.shell, { level := .debug, console := true }⟩, outcome') ∧
      outcome.exitCode = 0 ∧ Event.stdout outcome'.events = "0000: JUMPDEST\n" ∧
      outcome'.written.filter (fun r => Level.warn.admits r.level) =
        [.rejected "invalid hex bytecode: Odd number of digits"] := by
  have hargs : CommandLine.parse ["--shell"] = .ok ⟨.shell, {}⟩ := by
    decide +kernel
  have hargs' : CommandLine.parse ["--log-level", "debug", "--shell", "--log-console"] =
      .ok ⟨.shell, { level := .debug, console := true }⟩ := by
    decide +kernel
  have ht : (Tree.bare []).Closed := Tree.closed_of_entries (by decide)
  obtain ⟨outcome, outcome', hrun, hrun', hsame⟩ :=
    run_same_in_every_style ht hargs hargs' (by decide +kernel) "5b\n0xf".toUTF8.data.toList
  have houtcome := (congrArg Prod.fst (perform_command_of_ok hargs _)).symm.trans hrun
  simp only [Except.ok.injEq, Prod.mk.injEq, true_and] at houtcome
  have hexit : outcome.exitCode = 0 := by
    rw [← houtcome]
    decide +kernel
  have hstdout : Event.stdout outcome.events = "0000: JUMPDEST\n" := by
    rw [← houtcome]
    decide +kernel
  have hwritten : outcome.written =
      [.rejected "invalid hex bytecode: Odd number of digits"] := by
    rw [← houtcome]
    decide +kernel
  exact ⟨outcome, outcome', hrun, hrun', hexit, hsame.stdout.symm.trans hstdout,
    (hsame.records hexit rfl).symm.trans hwritten⟩

end Program

end BytecodeListing
