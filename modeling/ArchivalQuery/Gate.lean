import ArchivalQuery.QueryError
import ArchivalQuery.Settings.Limits

/-! # The gate before reading

A text passes if it is not too long and not nested too deeply.  Nesting is measured on the
characters alone, without reading a value: brackets inside quotes do not count, and a closing
bracket too many is ignored.
-/
namespace ArchivalQuery.Gate

structure Scan where
  depth : Nat := 0
  deepest : Nat := 0
  quoted : Bool := false
  escaped : Bool := false
deriving DecidableEq, Repr

def Scan.step (s : Scan) (c : Char) : Scan :=
  if s.quoted then
    if s.escaped then { s with escaped := false }
    else if c = '\\' then { s with escaped := true }
    else if c = '"' then { s with quoted := false }
    else s
  else if c = '"' then { s with quoted := true }
  else if c = '[' ∨ c = '\x7b' then
    { s with depth := s.depth + 1, deepest := max s.deepest (s.depth + 1) }
  else if c = ']' ∨ c = '\x7d' then { s with depth := s.depth - 1 }
  else s

/-- The greatest number of brackets that are open at once. -/
def nesting (text : String) : Nat := (text.toList.foldl Scan.step {}).deepest

/-- Refuses a text that exceeds one of the limits; its length is tested first. -/
def check (limits : Limits) (text : String) : Checked Unit := do
  let size := text.utf8ByteSize
  if limits.maxRequestSize.toNat < size then
    .error (.tooLarge (.bytes size limits.maxRequestSize.toNat))
  let depth := nesting text
  if limits.maxNestingDepth.toNat < depth then
    .error (.tooLarge (.nesting depth limits.maxNestingDepth.toNat))

def checkValue (limits : Limits) (v : Json) : Checked Unit := check limits v.text

end ArchivalQuery.Gate
