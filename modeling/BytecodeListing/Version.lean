/-!
# Name and version
-/

namespace BytecodeListing

/-- The name under which the program is called. -/
def programName : String := "evmdis"

/-- The version that the program reports. -/
def version : String := "0.1.0"

end BytecodeListing
