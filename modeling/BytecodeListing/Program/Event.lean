import BytecodeListing.Log.Record

/-!
# What a run brings about

A run is a list of events in the order in which they happen: lines for standard
output, lines for standard error, and log records. Which records are shown where is
decided afterwards, so the events of a run do not depend on how it is logged.
-/

namespace BytecodeListing

/-- One thing that a run does to be seen. -/
inductive Event where
  /-- Prints a text and a newline. -/
  | print (text : String)
  /-- Prints a line to standard error. -/
  | complain (line : String)
  /-- Makes a log record. -/
  | log (record : Record)
  deriving DecidableEq, Repr

namespace Event

/-- The log record of an event. -/
def record? : Event → Option Record
  | log record => some record
  | _ => none

/-- Whether an event remains when records below a threshold are left out. -/
def shows (threshold : Level) : Event → Bool
  | log record => threshold.admits record.level
  | _ => true

/-- The text that goes to standard output. -/
def stdout (events : List Event) : String :=
  String.ofList (events.flatMap fun
    | print text => text.toList ++ ['\n']
    | _ => [])

/-- The log records, in order. -/
def records (events : List Event) : List Record :=
  events.filterMap record?

/-- What goes to standard error: the complaints and, if they are asked for there,
the records. -/
def stderr (console : Bool) (events : List Event) : List (String ⊕ Record) :=
  events.filterMap fun
    | complain line => some (.inl line)
    | log record => if console then some (.inr record) else none
    | print _ => none

end Event

end BytecodeListing
