import Mathlib.Data.List.TakeWhile
import OsProjects.WebServer.RobustInput

namespace OsProjects
namespace WebServer

open Machine

/-!
# What the client prints

`clientPrint` reads the response of a server line by line, the headers first.  The number
that `Rio_readlineb` returns is not always the length of the line, but the client only
looks at whether it is positive, and so it prints the body of a response as it is.
-/

namespace Printed

end Printed

/-- The string in a buffer. -/
def cString (buf : List UInt8) : List UInt8 := buf.takeWhile (· ≠ 0)

/-- `"\r\n"` -/
def blankLine : List UInt8 := [13, newline]

section Reading

variable {maxlen : Nat} {rp : Rio} {items line body : List UInt8} {rest : Supply UInt8}

end Reading

/-! ## The output -/

/-- A line of the header of a response. -/
structure Header (line : List UInt8) : Prop where
  text : 0 ∉ line
  ends : Exists fun begins => line = begins ++ [newline] ∧ newline ∉ begins ∧
    begins.length + 1 < MAXBUF
  notBlank : line ≠ blankLine

section Output

variable {lengthOf : List UInt8 -> List UInt8} {rp : Rio} {body buf : List UInt8}

end Output

end WebServer
end OsProjects
