import BytecodeListing.Files.Directories

/-!
# The log directory

Logs are kept as `evmdis.log` and older generations of it, `evmdis.log.1` the newest
and `evmdis.log.10` the oldest. When the log has grown to five mebibytes the
generations move up by one and the oldest is dropped. Moving starts at the old end,
so that every name is free before the next log moves there, and it stops at the
first fault.
-/

namespace BytecodeListing

/-- Why logs cannot be kept. -/
inductive LogFault where
  | notCreated (directory : Path) (fault : FileFault)
  | permissionDenied (directory : Path)
  | notDirectory (directory : Path)
  | unusable (file : Path) (fault : FileFault)
  deriving DecidableEq, Repr

namespace LogFault

/-- The wording of a fault. -/
def message : LogFault → String
  | notCreated directory fault =>
      "failed to create log directory '" ++ directory.text ++ "': " ++ fault.message
  | permissionDenied directory =>
      "permission denied for log directory '" ++ directory.text ++ "'"
  | notDirectory directory =>
      "log path '" ++ directory.text ++ "' exists but is not a directory"
  | unusable file fault =>
      "I/O error on log file '" ++ file.text ++ "': " ++ fault.message

end LogFault

/-- A directory in which logs are kept. -/
structure LogDirectory where
  path : Path
  deriving DecidableEq, Repr

namespace LogDirectory

/-- Where logs are kept unless another place is asked for. -/
def standard : LogDirectory :=
  ⟨⟨".evmdis/logs"⟩⟩

/-- The oldest generation. -/
def generations : Nat := 10

/-- The size from which on a log is moved aside. -/
def sizeLimit : Nat := 5 * 1024 * 1024

/-- The name of a generation; the log in use is generation zero. -/
def fileName (generation : Nat) : Name :=
  if generation = 0 then
    "evmdis.log"
  else
    "evmdis.log." ++ toString generation

/-- The path of a generation. -/
def file (d : LogDirectory) (generation : Nat) : Path :=
  d.path.join (fileName generation)

/-- The path of the log in use. -/
def current (d : LogDirectory) : Path :=
  d.file 0

variable {m : Type → Type} [Monad m] [FileStore m]

open FileStore

/-- Makes sure that the directory is there. -/
def ensure (d : LogDirectory) : m (Except LogFault Unit) := do
  match ← kind? d.path with
  | some .directory => return .ok ()
  | some (.file _) => return .error (.notDirectory d.path)
  | none =>
      match ← makeDirectories d.path with
      | .ok () => return .ok ()
      | .error .permissionDenied => return .error (.permissionDenied d.path)
      | .error fault => return .error (.notCreated d.path fault)

/-- Whether the log in use has grown to the limit. A directory in its place has not: the size
of a directory is that of the list of its names, a few blocks, and some hundred thousand names
would be needed to reach the limit. Trees keep no such sizes. -/
def isFull (d : LogDirectory) : m Bool := do
  match ← kind? d.current with
  | some (.file size) => return decide (sizeLimit ≤ size)
  | _ => return false

/-- Moves the generations below `n` up by one, the oldest first. -/
def shift (d : LogDirectory) : Nat → m (Except LogFault Unit)
  | 0 => return .ok ()
  | n + 1 => do
      if ← present (d.file n) then
        match ← rename (d.file n) (d.file (n + 1)) with
        | .error fault => return .error (.unusable (d.file n) fault)
        | .ok () => d.shift n
      else
        d.shift n

/-- Drops the oldest generation and moves the others up by one. -/
def rotate (d : LogDirectory) : m (Except LogFault Unit) := do
  if ← present (d.file generations) then
    match ← remove (d.file generations) with
    | .error fault => return .error (.unusable (d.file generations) fault)
    | .ok () => d.shift generations
  else
    d.shift generations

end LogDirectory

namespace LogFile

variable {m : Type → Type} [Monad m] [FileStore m]

/-- Settles where the log goes and makes sure of the directory around it. The
standard log is moved aside when it is full; a log of one's own is left as it is. -/
def prepare : Option Path → m (Except LogFault Path)
  | some p => do
      match p.parent? with
      | none => return .ok p
      | some directory =>
          if directory.text = "" then
            return .ok p
          else
            match ← LogDirectory.ensure ⟨directory⟩ with
            | .ok () => return .ok p
            | .error fault => return .error fault
  | none => do
      let d := LogDirectory.standard
      match ← d.ensure with
      | .error fault => return .error fault
      | .ok () =>
          if ← d.isFull then
            match ← d.rotate with
            | .error fault => return .error fault
            | .ok () => return .ok d.current
          else
            return .ok d.current

/-- Settles where the log goes and opens it. -/
def start (custom : Option Path) : m (Except LogFault Path) := do
  match ← prepare custom with
  | .error fault => return .error fault
  | .ok p =>
      match ← FileStore.openAppend p with
      | .error fault => return .error (.unusable p fault)
      | .ok () => return .ok p

end LogFile

end BytecodeListing
