import BytecodeListing.CommandLine.Config
import BytecodeListing.CommandLine.Token
import BytecodeListing.Version

/-!
# Reading a command line

Arguments are read from left to right. Help and version act when they are met, and
an argument that is unknown fails when it is met. An option waits for its value, and
the value is judged when the next known option is met or the arguments end; an
attached value is judged at once. What is said twice is a conflict. Whether the
options go together is judged last.
-/

namespace BytecodeListing

namespace CommandLine

/-- Why a command line is not run. -/
inductive Refusal where
  /-- The help is asked for. -/
  | help
  /-- The version is asked for. -/
  | version
  /-- An argument means nothing. -/
  | unknownArgument
  /-- A value is missing or means nothing. -/
  | invalidValue
  /-- A flag has a value. -/
  | tooManyValues
  /-- Two arguments do not go together. -/
  | conflict
  /-- Nothing is asked for. -/
  | missingArgument
  deriving DecidableEq, Repr

namespace Refusal

/-- The exit code of a command line that is not run. -/
def exitCode : Refusal → Nat
  | help => 0
  | version => 0
  | _ => 2

/-- What is said in place of a run. -/
def message : Refusal → String
  | help =>
      "Disassemble EVM bytecode into a code/data listing\n\n" ++
        "Usage: " ++ programName ++ " [OPTIONS]\n\n" ++
        "Options:\n" ++
        "  --code <HEX|PATH>      Bytecode, or a path to a file holding it\n" ++
        "  --shell                Read bytecode, one hex string per line\n" ++
        "  --log-level <LEVEL>    debug, info, warn or error\n" ++
        "  --log-console          Also write logs to stderr\n" ++
        "  --log-file <PATH>      Custom log file path\n" ++
        "  --log-format <FORMAT>  text or json\n" ++
        "  -h, --help             Print help\n" ++
        "  -V, --version          Print version\n"
  | version => programName ++ " " ++ BytecodeListing.version ++ "\n"
  | unknownArgument => "error: unexpected argument\n"
  | invalidValue => "error: a value is missing or invalid\n"
  | tooManyValues => "error: a flag takes no value\n"
  | conflict => "error: arguments cannot be used together\n"
  | missingArgument => "error: one of --code and --shell is required\n"

end Refusal

/-- What has been read so far. -/
structure Draft where
  code : Option String := none
  shell : Bool := false
  level : Option Level := none
  console : Bool := false
  file : Option Path := none
  format : Option Format := none
  deriving DecidableEq, Repr

namespace Draft

/-- Fills a place that can be filled once. -/
def once {α : Type} (old : Option α) (value : Option α) : Except Refusal (Option α) :=
  match old, value with
  | some _, _ => .error .conflict
  | none, none => .error .invalidValue
  | none, some value => .ok (some value)

/-- The draft with the value of an option. -/
def set (d : Draft) (s : Setting) (value : String) : Except Refusal Draft :=
  match s with
  | .code =>
      (once d.code (some value)).map fun code => { d with code }
  | .logLevel =>
      (once d.level (Level.ofName? false value)).map fun level => { d with level }
  | .logFile =>
      (once d.file (if value = "" then none else some ⟨value⟩)).map fun file =>
        { d with file }
  | .logFormat =>
      (once d.format (Format.ofName? false value)).map fun format =>
        { d with format }

/-- The draft with a flag. -/
def raise (d : Draft) : Flag → Except Refusal Draft
  | .shell => if d.shell then .error .conflict else .ok { d with shell := true }
  | .logConsole =>
      if d.console then .error .conflict else .ok { d with console := true }
  | .help => .error .help
  | .version => .error .version

/-- The configuration of a complete draft. -/
def finish (d : Draft) : Except Refusal Config :=
  let logging : Logging :=
    { level := d.level.getD .warn
      console := d.console
      file := d.file
      format := d.format.getD .text }
  match d.code, d.shell with
  | some _, true => .error .conflict
  | some arg, false => .ok ⟨.list arg, logging⟩
  | none, true => .ok ⟨.shell, logging⟩
  | none, false => .error .missingArgument

end Draft

/-- An option that has been read while its value has not been judged. -/
inductive Waiting where
  | nothing
  /-- The value has not been read yet. -/
  | value (s : Setting)
  /-- The value has been read. -/
  | judgement (s : Setting) (value : String)
  deriving DecidableEq, Repr

/-- Judges the option that is waiting. -/
def settle (d : Draft) : Waiting → Except Refusal Draft
  | .nothing => .ok d
  | .value _ => .error .invalidValue
  | .judgement s value => d.set s value

/-- Reads arguments into a draft. -/
def read (d : Draft) (w : Waiting) : List String → Except Refusal Draft
  | [] => settle d w
  | arg :: rest =>
      match Token.ofArg arg with
      | .separator => if rest.isEmpty then settle d w else .error .unknownArgument
      | .setting s attached =>
          match settle d w, attached with
          | .error refusal, _ => .error refusal
          | .ok d, none => read d (.value s) rest
          | .ok d, some value =>
              match d.set s value with
              | .error refusal => .error refusal
              | .ok d => read d .nothing rest
      | .flag _ true => .error .tooManyValues
      | .flag f false =>
          match settle d w with
          | .error refusal => .error refusal
          | .ok d =>
              match d.raise f with
              | .error refusal => .error refusal
              | .ok d => read d .nothing rest
      | .unknown => .error .unknownArgument
      | .plain text =>
          match w with
          | .value s => read d (.judgement s text) rest
          | _ => .error .unknownArgument

/-- The configuration that a command line asks for. -/
def parse (args : List String) : Except Refusal Config :=
  match read {} .nothing args with
  | .error refusal => .error refusal
  | .ok d => d.finish

end CommandLine

end BytecodeListing
