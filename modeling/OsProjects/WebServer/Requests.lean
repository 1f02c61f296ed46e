import Mathlib.Algebra.Order.Ring.Int
import OsProjects.Machine.Tokens
import OsProjects.WebServer.Client

namespace OsProjects
namespace WebServer

open Machine

/-!
# Requests and responses

A worker answers a request line with the file that it names, or with an error.  Between
the client and the worker there are two connections' worth of reads and writes, each of
which may be cut anywhere; what the client prints in the end is the file.
-/

/-- The bytes of a text in the source. -/
def text (s : String) : List UInt8 := s.toList.map (fun c => c.toNat.toUInt8)

def isSpace (c : UInt8) : Bool := c = 32 ∨ (9 ≤ c ∧ c ≤ 13)

/-- `strcasecmp` -/
def lower (c : UInt8) : UInt8 := if 65 ≤ c ∧ c ≤ 90 then c + 32 else c

def slash : UInt8 := 47

/-- The variables `method` and `uri`, of which `sscanf` sets those that it finds. -/
structure Scanned where
  method : List UInt8
  uri : List UInt8

/-- `sscanf(buf, "%s %s %s", method, uri, version)` -/
def Scanned.scan (old : Scanned) (buf : List UInt8) : Scanned :=
  ⟨(tokens isSpace (cString buf))[0]?.getD old.method,
    (tokens isSpace (cString buf))[1]?.getD old.uri⟩

section Exchange

variable {uri host : List UInt8}

end Exchange

end WebServer
end OsProjects
