import BytecodeListing.Listing.Line
import BytecodeListing.Listing.Sweep

/-!
# The listing pass

One pass over the steps of a code splits it into lines of code and runs of data.
Code starts at the first byte. What follows a terminating instruction is not
assumed to be reachable and is collected as data until a JUMPDEST opens code
again; the data is still read instruction by instruction, so that a JUMPDEST byte
inside the operand of a push opens nothing.
-/

namespace BytecodeListing

/-- Whether the pass takes what it reads for reachable code. -/
inductive Mode where
  | code
  | data
  deriving DecidableEq, Repr

/-- Where the pass stands between two steps. -/
structure Pass where
  mode : Mode
  /-- The run of data that is still growing. -/
  region : Option Region
  lines : Array Line
  /-- The number of runs of data closed so far. -/
  closed : Nat
  deriving Repr

/-- The listing of a code. -/
structure Listing where
  /-- The number of bytes listed. -/
  size : Nat
  lines : List Line
  /-- The number of lines that are runs of data. -/
  dataRegions : Nat
  deriving DecidableEq, Repr

/-- The line of a step taken for code. -/
def Step.line (s : Step) : Line :=
  if s.insn.isPush ∧ s.pushed.length < s.insn.width then
    .truncated s.offset s.insn.width s.pushed
  else
    .code s.offset s.insn

namespace Mode

/-- The mode in which a step is read: a JUMPDEST always opens code. -/
def entering (mode : Mode) (s : Step) : Mode :=
  if s.insn.opcode = Opcode.jumpdest then .code else mode

/-- The mode behind a step that was read as code. -/
def leaving (s : Step) : Mode :=
  if Opcode.isTerminating s.insn.opcode then .data else .code

end Mode

namespace Pass

/-- Nothing has been read: code, and no line yet. -/
def start : Pass :=
  ⟨.code, none, #[], 0⟩

/-- The open run of data, if there is one, becomes a line. -/
def close : Pass → Pass
  | ⟨mode, some region, lines, closed⟩ =>
      ⟨mode, none, lines.push (.ofRegion region), closed + 1⟩
  | pass => pass

/-- Adds a line of code. -/
def write (line : Line) (mode : Mode) : Pass → Pass
  | ⟨_, region, lines, closed⟩ => ⟨mode, region, lines.push line, closed⟩

/-- Adds a step to the run of data, which it opens if there is none. -/
def absorb (s : Step) : Pass → Pass
  | ⟨mode, some region, lines, closed⟩ =>
      ⟨mode, some (region.absorb s.insn.opcode s.pushed), lines, closed⟩
  | ⟨mode, none, lines, closed⟩ =>
      ⟨mode, some ((Region.empty s.offset).absorb s.insn.opcode s.pushed),
        lines, closed⟩

/-- One step of the pass. -/
def advance (pass : Pass) (s : Step) : Pass :=
  match pass.mode.entering s with
  | .code => pass.close.write s.line (.leaving s)
  | .data => pass.absorb s

/-- The listing of a code of `size` bytes whose steps have all been read. -/
def finish (size : Nat) (pass : Pass) : Listing :=
  let pass := pass.close
  ⟨size, pass.lines.toList, pass.closed⟩

end Pass

namespace Table

/-- The listing of a code whose steps are in order. -/
def listing (t : Table) (code : List UInt8) : Listing :=
  ((t.sweep code).foldl Pass.advance Pass.start).finish code.length

/-- The listing of a code, or what is wrong with the first step that cannot be
listed. -/
def listing? (t : Table) (code : List UInt8) : Except Step.Fault Listing :=
  match (t.sweep code).findSome? Step.fault? with
  | some fault => .error fault
  | none => .ok (t.listing code)

end Table

/-- The listing of a code of the EVM. -/
def disassemble (code : List UInt8) : Listing :=
  Table.evm.listing code

/-- The printed lines of a listing. -/
def Listing.render (l : Listing) : List String :=
  l.lines.map Line.render

end BytecodeListing
