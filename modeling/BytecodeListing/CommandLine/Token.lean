/-!
# Words of a command line

Every argument is looked at on its own first. Options take a value, which may be
attached by an equals sign; flags take none. Names are not abbreviated, and of the
short forms only those of the help and the version exist.
-/

namespace BytecodeListing

namespace CommandLine

/-- The options that take a value. -/
inductive Setting where
  | code
  | logLevel
  | logFile
  | logFormat
  deriving DecidableEq, Repr

/-- The options that take none. -/
inductive Flag where
  | shell
  | logConsole
  | help
  | version
  deriving DecidableEq, Repr

/-- What an argument is when it is looked at on its own. -/
inductive Token where
  /-- The end of the options. -/
  | separator
  /-- An option with the value attached to it, if there is one. -/
  | setting (s : Setting) (attached : Option String)
  /-- A flag, and whether a value is attached to it. -/
  | flag (f : Flag) (attached : Bool)
  /-- A dash that starts no option. -/
  | unknown
  /-- Anything that does not look like an option. -/
  | plain (text : String)
  deriving DecidableEq, Repr

/-- The options that take a value, by name. -/
def settings : List (String × Setting) :=
  [("code", .code), ("log-level", .logLevel), ("log-file", .logFile),
    ("log-format", .logFormat)]

/-- The flags, by name. -/
def flags : List (String × Flag) :=
  [("shell", .shell), ("log-console", .logConsole), ("help", .help),
    ("version", .version)]

/-- The flags with a short form. -/
def shortFlags : List (Char × Flag) :=
  [('h', .help), ('V', .version)]

/-- A long option without its dashes: what stands before the first equals sign is
its name, and what stands behind it is its value. -/
def long (body : List Char) : Token :=
  let name := String.ofList (body.takeWhile fun c => c ≠ '=')
  let attached := body.dropWhile fun c => c ≠ '='
  match settings.lookup name, flags.lookup name with
  | some s, _ =>
      .setting s (if attached.isEmpty then none else some (String.ofList attached.tail))
  | none, some f => .flag f (!attached.isEmpty)
  | none, none => .unknown

/-- What an argument is when it is looked at on its own. A single dash is plain. -/
def Token.ofArg (arg : String) : Token :=
  match arg.toList with
  | ['-', '-'] => .separator
  | '-' :: '-' :: body => long body
  | '-' :: c :: _ =>
      match shortFlags.lookup c with
      | some f => .flag f false
      | none => .unknown
  | _ => .plain arg

end CommandLine

end BytecodeListing
