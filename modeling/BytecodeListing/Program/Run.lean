import BytecodeListing.CommandLine.Config
import BytecodeListing.Log.Directory
import BytecodeListing.Program.Shell

/-!
# Runs

A run opens the log, says so in it, and then lists one code or is a shell. Records
below the threshold are dropped; the others are added to the log file when the run
ends well. A run that fails leaves the log file as it was opened.
-/

namespace BytecodeListing

/-- What a run comes to. -/
structure Outcome where
  exitCode : Nat
  /-- What there is to be seen, without the records below the threshold. -/
  events : List Event
  /-- The log file, if it could be opened. -/
  log : Option Path
  deriving DecidableEq, Repr

namespace Outcome

/-- The records that have been added to the log file. -/
def written (o : Outcome) : List Record :=
  if o.exitCode = 0 then Event.records o.events else []

end Outcome

namespace Program

variable {m : Type → Type} [Monad m] [FileStore m]

/-- The events of a run that lists one code, and its exit code. -/
def listCode (arg : String) : m (List Event × Nat) := do
  let (records, result) ← Source.list arg
  match result with
  | .ok l =>
      return (records.map .log ++ [.print ("\n".intercalate l.render)], 0)
  | .error fault =>
      return (records.map .log ++
        [.log (.notLoaded fault.message), .complain ("Error: " ++ fault.message)],
        fault.exitCode)

/-- The events of a task, and its exit code. -/
def perform (task : Task) (input : List UInt8) : m (List Event × Nat) :=
  match task with
  | .list arg => listCode arg
  | .shell => return Shell.session (Shell.lines input)

/-- A run with its standard input. -/
def run (config : Config) (input : List UInt8) : m Outcome := do
  let logging := config.logging
  match ← LogFile.start logging.file with
  | .error fault =>
      let line := "FATAL: Failed to initialize logging system: " ++ fault.message
      return ⟨1, [.complain line], none⟩
  | .ok file =>
      let (events, exitCode) ← perform config.task input
      let shown := (Event.log .starting :: events).filter (Event.shows logging.level)
      let outcome : Outcome := ⟨exitCode, shown, some file⟩
      let lines := Record.lines logging.format outcome.written
      let _ ← FileStore.append file (String.ofList lines).toUTF8
      return outcome

end Program

end BytecodeListing
