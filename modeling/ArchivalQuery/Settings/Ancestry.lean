/-! # Ancestry fields

The names under which stored documents hold their identifier and their place in the graph.
-/
namespace ArchivalQuery

/-- The stored names of identity and ancestry. -/
structure Ancestry where
  id : String := "_id"
  /-- The direct parents. -/
  parents : String := "_up"
  /-- The parents, their parents, and so on. -/
  ancestors : String := "_us"
  /-- The least distance from the top of the graph. -/
  minDepth : String := "_min"
  /-- The greatest distance from the top of the graph. -/
  maxDepth : String := "_max"
deriving DecidableEq, Repr

/-- The roles of the stored names, in order. -/
inductive Role
  | id | parents | ancestors | minDepth | maxDepth
deriving DecidableEq, Repr

namespace Role

def all : List Role := [id, parents, ancestors, minDepth, maxDepth]

def label : Role → String
  | id => "id"
  | parents => "parents"
  | ancestors => "ancestors"
  | minDepth => "min_depth"
  | maxDepth => "max_depth"

end Role

def Ancestry.name (a : Ancestry) : Role → String
  | .id => a.id
  | .parents => a.parents
  | .ancestors => a.ancestors
  | .minDepth => a.minDepth
  | .maxDepth => a.maxDepth

end ArchivalQuery
