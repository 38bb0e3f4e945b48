import BytecodeListing.Listing.Region
import BytecodeListing.Machine.Instruction

/-!
# Lines of a listing

A line is kept as data until it is printed: an instruction, a push whose operand
runs past the end of the code, or a run of data.
-/

namespace BytecodeListing

/-- One line of a listing. -/
inductive Line where
  /-- An instruction at its offset. -/
  | code (offset : Nat) (insn : Instruction)
  /-- A push of `width` bytes of which only `present` are in the code. -/
  | truncated (offset : Nat) (width : Nat) (present : List UInt8)
  /-- A run of bytes that is not assumed to be code. -/
  | data (offset : Nat) (bytes : List UInt8)
  deriving DecidableEq, Repr

namespace Line

/-- Where the line starts in the code. -/
def offset : Line → Nat
  | code offset _ => offset
  | truncated offset _ _ => offset
  | data offset _ => offset

/-- Whether the line is a run of data. -/
def isData : Line → Bool
  | data _ _ => true
  | _ => false

/-- The line of a closed region. -/
def ofRegion (r : Region) : Line :=
  data r.start r.bytes.toList

/-- The characters of a line. A push cut off by the end of the code is marked as
such and named by its width. -/
def text : Line → List Char
  | code offset insn => Hex.ofOffset offset ++ [':', ' '] ++ insn.text
  | truncated offset width present =>
      Hex.ofOffset offset ++ ": PUSH".toList ++ (toString width).toList ++
        " 0x".toList ++ Hex.ofBytes present ++ " # truncated".toList
  | data offset bytes => Region.line offset bytes

/-- The printed line. -/
def render (l : Line) : String :=
  String.ofList l.text

@[simp] theorem toList_render (l : Line) : l.render.toList = l.text := by
  simp [render]

@[simp] theorem text_ofRegion (r : Region) : (ofRegion r).text = r.text := rfl

end Line

end BytecodeListing
