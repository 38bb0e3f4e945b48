import BytecodeListing.Program.Command

/-!
# The command

The files of the system as a store, and the command that reads its arguments, runs
and shows what the run brought about. Nothing is decided here.
-/

namespace BytecodeListing

namespace Host

/-- The number under which the system reports an error. -/
def number : IO.Error → Nat
  | .alreadyExists _ code _ => code.toNat
  | .otherError code _ => code.toNat
  | .resourceBusy code _ => code.toNat
  | .resourceVanished code _ => code.toNat
  | .unsupportedOperation code _ => code.toNat
  | .hardwareFault code _ => code.toNat
  | .unsatisfiedConstraints code _ => code.toNat
  | .illegalOperation code _ => code.toNat
  | .protocolError code _ => code.toNat
  | .timeExpired code _ => code.toNat
  | .interrupted _ code _ => code.toNat
  | .noFileOrDirectory _ code _ => code.toNat
  | .invalidArgument _ code _ => code.toNat
  | .permissionDenied _ code _ => code.toNat
  | .resourceExhausted _ code _ => code.toNat
  | .inappropriateType _ code _ => code.toNat
  | .noSuchThing _ code _ => code.toNat
  | .unexpectedEof => 0
  | .userError _ => 0

/-- The fault that an error of the system reports. -/
def fault (e : IO.Error) : FileFault :=
  match number e with
  | 2 => .notFound
  | 13 => .permissionDenied
  | 17 => .alreadyExists
  | 20 => .notDirectory
  | 21 => .isDirectory
  | 22 => .invalidArgument
  | 36 => .nameTooLong
  | 39 => .notEmpty
  | 40 => .tooManyLinks
  | _ => .other (toString e)

/-- The result of an action, or the fault that ended it. -/
def attempt {α : Type} (action : IO α) : IO (Except FileFault α) := do
  match ← action.toBaseIO with
  | .ok a => return .ok a
  | .error e => return .error (fault e)

/-- The number of bytes left to read. -/
partial def countBytes (h : IO.FS.Handle) (counted : Nat) : IO Nat := do
  let bytes ← h.read 65536
  if bytes.isEmpty then return counted else countBytes h (counted + bytes.size)

/-- What a path names. What may not be opened is taken for an empty file. -/
def kind? (p : Path) : IO (Option Kind) := do
  match ← attempt (do countBytes (← IO.FS.Handle.mk p.text .read) 0) with
  | .ok size => return some (.file size)
  | .error .isDirectory => return some .directory
  | .error .permissionDenied => return some (.file 0)
  | .error _ => return none

instance : FileStore IO where
  kind? := kind?
  makeDirectory p := attempt ( IO.FS.createDir p.text)
  remove p := attempt ( IO.FS.removeFile p.text)
  rename source target := attempt ( IO.FS.rename source.text target.text)
  read p := attempt ( IO.FS.readBinFile p.text)
  openAppend p := attempt (do let _ ← IO.FS.Handle.mk p.text .append)
  append p bytes := attempt (do (← IO.FS.Handle.mk p.text .append).write bytes)

/-- Everything that is left on a stream. -/
partial def readAll (input : IO.FS.Stream) (done : ByteArray) : IO ByteArray := do
  let bytes ← input.read 65536
  if bytes.isEmpty then return done else readAll input (done ++ bytes)

/-- Shows one event. -/
def present (logging : Logging) : Event → IO Unit
  | .print text => IO.println text
  | .complain line => IO.eprintln line
  | .log record => do
      if logging.console then
        IO.eprintln (String.ofList (record.line logging.format))

/-- Reads a command line, runs it, shows what it brought about and gives its exit
code. -/
def command (args : List String) : IO Nat := do
  let stdin := do return (← readAll (← IO.getStdin) .empty).toList
  match ← Program.command args stdin with
  | .error refusal =>
      if refusal.exitCode = 0 then IO.print refusal.message else IO.eprint refusal.message
      return refusal.exitCode
  | .ok (config, outcome) =>
      outcome.events.forM (present config.logging)
      return outcome.exitCode

end Host

end BytecodeListing

def main (args : List String) : IO UInt32 := do
  return (← BytecodeListing.Host.command args).toUInt32
