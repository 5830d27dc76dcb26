import ArchivalQuery.Json.Basic

/-! # Filter documents

The documents that restrict a search to a working set, and the joining of an expression with its
restriction.
-/
namespace ArchivalQuery.Filter
open Json (single)

/-- The filter of the documents that hold one of the identifiers in a field.  No identifiers give no
filter, one gives an equality, several keep their order and their repetitions. -/
def memberOf? (field : String) : List String → Option Json
  | [] => none
  | [id] => some (single field (.str id))
  | ids => some (single field (single "$in" (.ofStrings ids)))

def restrict (query : Json) : Option Json → Json
  | some restriction => single "$and" (.arr [query, restriction])
  | none => query

/-- The window of depths of a document: its least and its greatest depth enclose one depth. -/
structure DepthWindow where
  minField : String
  maxField : String
  depth : UInt32
deriving DecidableEq

def within (restriction : Option Json) (w : DepthWindow) : Json :=
  single "$and" (.arr (restriction.toList ++
    [single w.minField (single "$lte" (.ofUInt32 w.depth)),
      single w.maxField (single "$gte" (.ofUInt32 w.depth))]))

end ArchivalQuery.Filter
