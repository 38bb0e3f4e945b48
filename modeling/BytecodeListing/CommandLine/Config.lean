import BytecodeListing.Files.Path
import BytecodeListing.Log.Level

/-!
# Configurations

What a run is asked to do and how it is logged. A run lists one code or is a shell;
there is no configuration for both or for neither.
-/

namespace BytecodeListing

/-- How a run is logged. -/
structure Logging where
  level : Level := .warn
  /-- Whether records also go to standard error. -/
  console : Bool := false
  /-- Where the log goes, if not to the standard place. -/
  file : Option Path := none
  format : Format := .text
  deriving DecidableEq, Repr

/-- What a run does. -/
inductive Task where
  /-- Lists the bytecode that an argument stands for. -/
  | list (arg : String)
  /-- Lists the bytecode on every line of the input. -/
  | shell
  deriving DecidableEq, Repr

/-- What a run is asked to do. -/
structure Config where
  task : Task
  logging : Logging := {}
  deriving DecidableEq, Repr

end BytecodeListing
