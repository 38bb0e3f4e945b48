import BytecodeListing.Listing.Pass
import BytecodeListing.Log.Record
import BytecodeListing.Version

/-!
# What the program logs

Every record that the program makes, each with the values it reports.
-/

namespace BytecodeListing

namespace Record

/-- The log has been opened. -/
def starting : Record :=
  ⟨.info, "evmdis starting", [("version", .string version)]⟩

/-- Bytecode is taken from a file. -/
def readingFile (arg : String) : Record :=
  ⟨.debug, "Reading bytecode from file", [("path", .string arg)]⟩

/-- A code has been listed. -/
def disassembled (l : Listing) : Record :=
  ⟨.debug, "Disassembled bytecode",
    [("bytes", .number l.size), ("lines", .number l.lines.length),
      ("data_regions", .number l.dataRegions)]⟩

/-- There is no code to list. -/
def notLoaded (fault : String) : Record :=
  ⟨.error, "Could not load bytecode", [("error", .string fault)]⟩

/-- The shell prints a listing. -/
def shellListing (l : Listing) : Record :=
  ⟨.debug, "Shell listing", [("lines", .number l.lines.length)]⟩

/-- The shell cannot read a line as bytecode. -/
def rejected (fault : String) : Record :=
  ⟨.warn, "Rejected shell input", [("error", .string fault)]⟩

/-- The shell cannot go on. -/
def shellFailed (fault : String) : Record :=
  ⟨.error, "Shell failed", [("error", .string fault)]⟩

end Record

end BytecodeListing
