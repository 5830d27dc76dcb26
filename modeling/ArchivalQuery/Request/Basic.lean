import ArchivalQuery.Node.Read

/-! # Requests

A request names roots in the graph, steps that search from them, options for the results, and data
to write.
-/
namespace ArchivalQuery

inductive Direction
  | ascending | descending
deriving DecidableEq, Repr

namespace Direction

def all : List Direction := [ascending, descending]

def label : Direction → String
  | ascending => "asc"
  | descending => "desc"

end Direction

structure OrderBy where
  field : String
  direction : Direction
deriving DecidableEq

structure FilterSection where
  offset : UInt64 := 0
  limit : UInt64
  /-- In the order given, each once. -/
  hints : List Hint := []
  orderBy : List OrderBy := []
deriving DecidableEq

/-- A field that the results include or leave out. -/
structure ProjectedField where
  field : String
  included : Bool
deriving DecidableEq

structure Projection where
  fields : List ProjectedField := []
  usage : Option String := none
deriving DecidableEq

def Projection.included (p : Projection) : List String :=
  (p.fields.filter (·.included)).map (·.field)

structure Request where
  kind : RequestKind
  roots : List String
  steps : List Step
  filter : FilterSection
  projection : Projection
  data : Option Json
deriving DecidableEq

def Request.resetRoots (r : Request) (roots : List String) : Request := { r with roots }

/-- The request with one identifier as its only root, unless the identifier is empty. -/
def Request.pin (r : Request) (id : Option String) : Request :=
  match id with
  | none => r
  | some id => if id.isEmpty then r else r.resetRoots [id]

end ArchivalQuery
