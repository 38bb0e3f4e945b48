import BytecodeListing.Program.Command
import BytecodeListing.Proofs.Agreement
import BytecodeListing.Proofs.Session
import BytecodeListing.Proofs.Startup

/-!
# What a run comes to

A run is taken apart at the start of its log. If the log cannot be started the run says so
and is over (`perform_run_of_error`). Otherwise the task is performed on the tree with the
log in it, which it only reads (`snd_perform_perform`), and what has been logged is added to
the log in the end (`perform_run_of_names`).
-/

namespace BytecodeListing

namespace Event

/-- The lines on standard error that are no records. -/
def complaints (console : Bool) (events : List Event) : List String :=
  (stderr console events).filterMap Sum.getLeft?

variable (console : Bool) (events : List Event)

/-- Whether records go to standard error as well makes no difference to them. -/
theorem complaints_eq : complaints console events = complaints false events := by
  induction events with
  | nil => rfl
  | cons e events ih =>
      cases e with
      | print line => exact ih
      | complain line => exact congrArg (line :: ·) ih
      | log r => cases console <;> exact ih

/-- Nor does the threshold. -/
theorem complaints_filter (level : Level) :
    complaints console (events.filter (shows level)) = complaints false events := by
  rw [complaints_eq, complaints, (shows_filter events level).2, complaints]

end Event

/-- What a run adds to its log. -/
def Outcome.bytes (o : Outcome) (format : Format) : ByteArray :=
  (String.ofList (Record.lines format o.written)).toUTF8

namespace Program

variable {t t₁ : Tree} {config : Config} {file : Path}

theorem snd_perform_resolve (t : Tree) (arg : String) :
    (t.perform (Source.resolve arg)).2 = t := by
  rw [Source.perform_resolve]

/-- Listing a code changes no file. -/
theorem snd_perform_listCode (t : Tree) (arg : String) :
    (t.perform (listCode arg)).2 = t := by
  have hlist : (t.perform (Source.list arg)).2 = t := by
    rw [Source.list, Tree.perform_bind, snd_perform_resolve]
    dsimp only
    split <;> rfl
  rw [listCode, Tree.perform_bind, hlist]
  dsimp only
  split <;> rfl

theorem snd_perform_perform (t : Tree) (task : Task) (input : List UInt8) :
    (t.perform (perform task input)).2 = t := by
  cases task with
  | list arg => exact snd_perform_listCode t arg
  | shell => rfl

/-- What a run comes to when its log has been opened and its task has been performed. -/
def concluded (config : Config) (file : Path) (result : List Event × Nat) : Outcome :=
  ⟨result.2, (Event.log .starting :: result.1).filter (Event.shows config.logging.level),
    some file⟩

theorem perform_run_of_error {fault : LogFault}
    (h : t.perform (LogFile.start config.logging.file) = (.error fault, t₁))
    (input : List UInt8) :
    t.perform (run config input) =
      (⟨1, [.complain ("FATAL: Failed to initialize logging system: " ++ fault.message)],
        none⟩, t₁) := by
  rw [run, Tree.perform_bind, h]
  rfl

theorem perform_run_of_ok
    (h : t.perform (LogFile.start config.logging.file) = (.ok file, t₁))
    (input : List UInt8) :
    let outcome := concluded config file (t₁.perform (perform config.task input)).1
    t.perform (run config input) =
      (outcome,
        (t₁.perform (FileStore.append file (outcome.bytes config.logging.format))).2) := by
  intro outcome
  rw [run, Tree.perform_bind, h]
  dsimp only
  rw [Tree.perform_bind, snd_perform_perform]
  rfl

/-- A run adds what it has logged to its log and changes nothing else. -/
theorem perform_run_of_names {loc : Location} {content : ByteArray}
    (h : t.perform (LogFile.start config.logging.file) = (.ok file, t₁))
    (hnames : t₁.Names file loc content) (input : List UInt8) :
    let outcome := concluded config file (t₁.perform (perform config.task input)).1
    t.perform (run config input) =
      (outcome, t₁.put loc (.file (content ++ outcome.bytes config.logging.format))) := by
  intro outcome
  rw [perform_run_of_ok h, Tree.perform_append, hnames.append]

theorem perform_command_of_error {args : List String} {refusal : CommandLine.Refusal}
    (h : CommandLine.parse args = .error refusal) (stdin : StateM Tree (List UInt8)) :
    t.perform (command args stdin) = (.error refusal, t) := by
  rw [command, h]
  rfl

/-- An accepted command line is run; to list a code no input is needed. -/
theorem perform_command_of_ok {args : List String} (h : CommandLine.parse args = .ok config)
    (input : List UInt8) :
    t.perform (command args (pure input)) =
      (.ok (config, (t.perform (run config input)).1), (t.perform (run config input)).2) := by
  obtain ⟨task, logging⟩ := config
  rw [command, h]
  cases task with
  | list arg => rfl
  | shell => rfl

end Program

end BytecodeListing
