import BytecodeListing.Bytecode.Literal
import BytecodeListing.Files.Store
import BytecodeListing.Log.Program

/-!
# Where bytecode comes from

An argument that names something is the path of a file with the text of a bytecode;
any other argument is that text itself.
-/

namespace BytecodeListing

/-- Why there is no bytecode. -/
inductive SourceFault where
  /-- The file cannot be read. -/
  | unreadable (file : Path) (fault : FileFault)
  /-- The text is not that of a bytecode. -/
  | malformed (fault : Hex.Fault)
  deriving DecidableEq, Repr

namespace SourceFault

/-- The wording of a fault. -/
def message : SourceFault → String
  | unreadable file fault =>
      "failed to read bytecode from '" ++ file.text ++ "': " ++ fault.message
  | malformed fault => "invalid hex bytecode: " ++ fault.message

/-- The exit code of a run that a fault ends. -/
def exitCode : SourceFault → Nat
  | unreadable _ _ => 66
  | malformed _ => 65

end SourceFault

namespace Source

/-- Bytecode from its text. -/
def parse (text : String) : Except SourceFault (List UInt8) :=
  (Literal.parse text.toList).mapError .malformed

/-- The text that the content of a file encodes. -/
def decode (file : Path) (content : ByteArray) : Except SourceFault String :=
  match String.fromUTF8? content with
  | some text => .ok text
  | none => .error (.unreadable file .notText)

variable {m : Type → Type} [Monad m] [FileStore m]

open FileStore

/-- The bytecode that an argument stands for, with the records made on the way. -/
def resolve (arg : String) : m (List Record × Except SourceFault (List UInt8)) := do
  let file : Path := ⟨arg⟩
  match ← kind? file with
  | none => return ([], parse arg)
  | some _ =>
      match ← FileStore.read file with
      | .error fault =>
          return ([.readingFile arg], .error (.unreadable file fault))
      | .ok content =>
          return ([.readingFile arg], decode file content >>= parse)

/-- The listing of the bytecode that an argument stands for. -/
def list (arg : String) : m (List Record × Except SourceFault Listing) := do
  let (records, code) ← resolve arg
  match code with
  | .error fault => return (records, .error fault)
  | .ok code =>
      let l := disassemble code
      return (records ++ [.disassembled l], .ok l)

end Source

end BytecodeListing
