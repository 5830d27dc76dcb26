import ArchivalQuery.Depth
import ArchivalQuery.Filter.Document

/-! # Plans

A plan is a request made ready for the store: the filter of each step, how each step is bound to its
working set, and what happens to the results.
-/
namespace ArchivalQuery
open ArchivalQuery.Filter (DepthWindow)

/-- How a working set restricts a step. -/
structure Binding where
  /-- The stored field that holds the identifiers of the set. -/
  field : String
  window : Option DepthWindow := none
deriving DecidableEq

def Binding.restriction? (b : Binding) (ids : List String) : Option Json :=
  match b.window with
  | some w => some (Filter.within (Filter.memberOf? b.field ids) w)
  | none => Filter.memberOf? b.field ids

structure PlanStep where
  index : Nat
  scope : Scope
  expansion : Expansion
  /-- The filter of the expression alone. -/
  query : Json
  binding : Binding
deriving DecidableEq

/-- The filter of a step for an expanded working set.  The first step is free of restriction if the
set is empty; a later one then has nothing to find. -/
def PlanStep.command? (s : PlanStep) (ids : List String) : Option Json :=
  if 0 < s.index && ids.isEmpty then none
  else some (Filter.restrict s.query (s.binding.restriction? ids))

structure Plan where
  kind : RequestKind
  collection : Collection
  roots : List String
  steps : List PlanStep
  /-- The stored field of identifiers. -/
  idField : String
  projection : Json
  usage : Option String
  sort : Json
  offset : UInt64
  limit : UInt64
  hints : List Hint
  data : Option Json
  /-- The request as it came, to be sent back with the results. -/
  context : Json := .null
deriving DecidableEq

namespace Plan

/-- The filter of the first step under the roots, if the roots need no expansion. -/
def firstCommand? (p : Plan) : Option Json :=
  match p.steps with
  | [] => none
  | s :: _ => if s.expansion = .none then s.command? p.roots else none

/-- The filter of a plan without steps: the roots themselves, or everything. -/
def lookupCommand (p : Plan) : Json :=
  (Filter.memberOf? p.idField p.roots).getD (.obj [])

end Plan
end ArchivalQuery
