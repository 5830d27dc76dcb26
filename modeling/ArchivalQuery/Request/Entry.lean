import ArchivalQuery.Gate
import ArchivalQuery.Json.Reader
import ArchivalQuery.Request.Read
import ArchivalQuery.Text.Blank

/-! # Entry points for requests

A request comes as text or as a value.  Both pass the gate before they are read; a blank text is
refused before the gate.
-/
namespace ArchivalQuery.Request

def decode (limits : Limits) (text : String) : Checked Json := do
  if Text.allBlank text then malformed .empty
  Gate.check limits text
  match Json.ofText? text with
  | some v => return v
  | none => malformed .invalidJson

def ofText (kind : RequestKind) (limits : Limits) (text : String) : Checked Request := do
  read kind limits (← decode limits text)

def ofValue (kind : RequestKind) (limits : Limits) (v : Json) : Checked Request := do
  Gate.checkValue limits v
  read kind limits v

end ArchivalQuery.Request
