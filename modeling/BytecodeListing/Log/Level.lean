/-!
# Levels and formats of the log

A level says how much a record matters; a threshold lets through the records at or
above it. Levels and formats are chosen by name.
-/

namespace BytecodeListing

/-- How much a record matters. -/
inductive Level where
  | debug
  | info
  | warn
  | error
  deriving DecidableEq, Repr

/-- How records are written. -/
inductive Format where
  | text
  | json
  deriving DecidableEq, Repr

/-- The value with the given name, where case may be told to make no difference.
The names are in lower case. -/
def byName? {α : Type} (names : List (String × α)) (ignoreCase : Bool)
    (name : String) : Option α :=
  names.lookup
    (if ignoreCase then String.ofList (name.toList.map Char.toLower) else name)

/-- What is said of a name that stands for nothing, where a level or a format is asked for
by its name alone. The command line refuses such a name in words of its own. -/
def unknownName (name : String) : String :=
  "invalid variant: " ++ name

namespace Level

/-- The levels by name. -/
def names : List (String × Level) :=
  [("debug", debug), ("info", info), ("warn", warn), ("error", error)]

/-- The name of a level. -/
def name : Level → String
  | debug => "debug"
  | info => "info"
  | warn => "warn"
  | error => "error"

/-- The level as it is written in a record. -/
def label : Level → String
  | debug => "DEBUG"
  | info => "INFO"
  | warn => "WARN"
  | error => "ERROR"

/-- The place of a level in the order of importance. -/
def rank : Level → Nat
  | debug => 0
  | info => 1
  | warn => 2
  | error => 3

/-- Whether a threshold lets a level through. -/
def admits (threshold level : Level) : Bool :=
  threshold.rank ≤ level.rank

/-- The level with a name. -/
def ofName? (ignoreCase : Bool) (name : String) : Option Level :=
  byName? names ignoreCase name

theorem ofName?_name (level : Level) (ignoreCase : Bool) :
    ofName? ignoreCase level.name = some level := by
  cases level <;> cases ignoreCase <;> decide

end Level

namespace Format

/-- The formats by name. -/
def names : List (String × Format) :=
  [("text", text), ("json", json)]

/-- The format with a name. -/
def ofName? (ignoreCase : Bool) (name : String) : Option Format :=
  byName? names ignoreCase name

end Format

end BytecodeListing
