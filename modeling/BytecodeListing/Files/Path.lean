import BytecodeListing.Files.Fault

/-!
# Paths

A path is kept as it was written and shown as it was written. Slashes cut it into
segments. Empty segments play no part, and neither does an inner `.`; a leading `.`
counts as a segment of its own. `ancestors` lists a path and the paths that enclose
it, innermost first, and the parent of a path is the second of them.
-/

namespace BytecodeListing

/-- A name in a directory. -/
abbrev Name := String

/-- A path as it was written. -/
structure Path where
  text : String
  deriving DecidableEq, Repr

namespace Path

/-- What stands between the slashes. -/
def segments (p : Path) : List Name :=
  (p.text.toList.splitOn '/').map String.ofList

/-- The names that lead along the path, `.` and `..` among them. -/
def names (p : Path) : List Name :=
  p.segments.filter fun s => s ≠ ""

/-- Whether the path starts at the root. -/
def isAbsolute (p : Path) : Bool :=
  p.text.toList.head? = some '/'

/-- Whether the path is written as that of a directory. -/
def endsInSlash (p : Path) : Bool :=
  p.text.toList.getLast? = some '/'

/-- The names that lead along the path, and an empty name for a closing slash, which
asks for a directory. -/
def steps (p : Path) : List Name :=
  if p.endsInSlash then p.names ++ [""] else p.names

/-- The path of a name in a directory. No slash is put behind another or in front
of the whole path. -/
def join (dir : Path) (name : Name) : Path :=
  if dir.text = "" ∨ dir.endsInSlash then
    ⟨dir.text ++ name⟩
  else
    ⟨dir.text ++ "/" ++ name⟩

/-- A segment that plays no part behind the first one. -/
def isFiller (s : Name) : Bool :=
  s = "" || s = "."

/-- The ends of a list of segments, given last segment first, that start with a
segment that plays a part; the last of them is empty. -/
def enclosing : List Name → List (List Name)
  | [] => [[]]
  | s :: outer =>
      if isFiller s then enclosing outer else (s :: outer) :: enclosing outer

/-- The path with the given first segment and further segments, last one
first. -/
def ofSegments (first : Name) (further : List Name) : Path :=
  if first = "" ∧ further = [] then
    ⟨"/"⟩
  else
    ⟨"/".intercalate (first :: further.reverse)⟩

/-- The path itself and the paths that enclose it, innermost first. The empty path
has none and is not counted as one. -/
def ancestors (p : Path) : List Path :=
  if p.text = "" then
    []
  else
    match p.segments with
    | [] => []
    | first :: further =>
        p :: (enclosing further.reverse).tail.map (ofSegments first)

/-- The path without its last segment. The empty path and the root have none, and a
single name is in the empty path. -/
def parent? (p : Path) : Option Path :=
  match p.ancestors with
  | [] => none
  | [_] => if p.isAbsolute then none else some ⟨""⟩
  | _ :: parent :: _ => some parent

/-- The most bytes that a path may have. -/
def maxLength : Nat := 4095

/-- The most bytes that a name may have. -/
def maxNameLength : Nat := 255

/-- What is wrong with a path before any name of it is looked up. -/
def fault? (p : Path) : Option FileFault :=
  if p.text.toList.contains '\x00' then some .zeroInPath
  else if p.text = "" then some .notFound
  else if maxLength < p.text.utf8ByteSize then some .nameTooLong
  else none

end Path

end BytecodeListing
