import BytecodeListing.Bytecode.Source
import BytecodeListing.Program.Event

/-!
# The shell

The shell reads bytecode line by line and prints the listing of each. A line that is
no bytecode is reported and does not end it; `exit` and `quit` do, and so does the
end of the input. Bytes that are no text end it as a failure.
-/

namespace BytecodeListing

namespace Shell

/-- What to do with one line. -/
inductive Reply where
  | exit
  | skip
  | listing (l : Listing)
  deriving DecidableEq, Repr

/-- The words that end the shell. -/
def farewells : List (List Char) :=
  ["exit".toList, "quit".toList]

/-- What to do with one line. -/
def handle (line : List Char) : Except SourceFault Reply :=
  let text := Text.trim line
  if farewells.contains text then .ok .exit
  else if text.isEmpty then .ok .skip
  else
    match Literal.parse text with
    | .ok code => .ok (.listing (disassemble code))
    | .error fault => .error (.malformed fault)

/-- The newline byte. -/
def newline : UInt8 := 0x0a

/-- The line in front of a newline: a carriage return there belongs to the line
end. -/
def chomp (line : List UInt8) : List UInt8 :=
  if line.getLast? = some 0x0d then line.dropLast else line

/-- The lines of an input. What follows the last newline is a line if it is not
empty. -/
def lines (input : List UInt8) : List (List UInt8) :=
  let pieces := input.splitOn newline
  pieces.dropLast.map chomp ++ (pieces.getLast?.toList.filter fun last => last ≠ [])

/-- The events of a session on some lines, and its exit code. -/
def session : List (List UInt8) → List Event × Nat
  | [] => ([], 0)
  | line :: rest =>
      match String.fromUTF8? line.toByteArray with
      | none =>
          let fault := FileFault.notText.message
          ([.log (.shellFailed fault), .complain ("Shell error: " ++ fault)], 1)
      | some text =>
          match handle text.toList with
          | .ok .exit => ([], 0)
          | .ok .skip => session rest
          | .ok (.listing l) =>
              let (events, code) := session rest
              (.log (.disassembled l) :: .log (.shellListing l) ::
                (l.render.map .print ++ events), code)
          | .error fault =>
              let (events, code) := session rest
              (.log (.rejected fault.message) ::
                .complain ("Error: " ++ fault.message) :: events, code)

end Shell

end BytecodeListing
