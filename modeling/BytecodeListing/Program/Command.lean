import BytecodeListing.CommandLine.Parse
import BytecodeListing.Program.Run

/-!
# Commands

A command line is read first, and only one that is accepted is run. Standard input is
read for the shell alone.
-/

namespace BytecodeListing

namespace Program

variable {m : Type → Type} [Monad m] [FileStore m]

/-- Reads a command line and runs what it asks for. -/
def command (args : List String) (stdin : m (List UInt8)) :
    m (Except CommandLine.Refusal (Config × Outcome)) := do
  match CommandLine.parse args with
  | .error refusal => return .error refusal
  | .ok config =>
      let input ← match config.task with
        | .shell => stdin
        | .list _ => pure []
      return .ok (config, ← run config input)

end Program

end BytecodeListing
