import ArchivalQuery.QueryError
import ArchivalQuery.Settings.Ancestry

/-! # Depth

How far in the graph a step reaches.  A depth resolves to a scope; the scope says which stored field
the identifiers of the working set are matched with, and how the working set is expanded before.
-/
namespace ArchivalQuery

inductive Depth
  /-- Hops from the working set, downwards if positive. -/
  | relative (hops : Int32)
  /-- Distance from the top of the graph. -/
  | exact (distance : Int32)
deriving DecidableEq

def Depth.default : Depth := .relative 1

/-- The part of the graph that a step searches. -/
inductive Scope
  | children
  | descendants (hops : UInt32)
  | ancestors (hops : UInt32)
  /-- The descendants at one distance from the top. -/
  | exact (depth : UInt32)
deriving DecidableEq

/-- How the working set grows before a step is bound to it. -/
inductive Expansion
  | none
  /-- The set and its descendants up to so many hops down. -/
  | descendants (hops : UInt32)
  /-- The ancestors up to so many hops up, in place of the set. -/
  | ancestors (hops : UInt32)
deriving DecidableEq

namespace Depth

def magnitude (n : Int32) : UInt32 := UInt32.ofNat n.toInt.natAbs

def check : Depth → Checked Unit
  | relative n => if n = 0 then malformed .zeroDepth else .ok ()
  | exact n => if n < 0 then malformed (.negativeDepth n.toInt) else .ok ()

def scope : Depth → Scope
  | relative n =>
    if n = 1 then .children
    else if 0 < n then .descendants (magnitude n)
    else .ancestors (magnitude n)
  | exact n => .exact (magnitude n)

def resolve (d : Depth) : Checked Scope := do
  d.check
  return d.scope

end Depth

namespace Scope

/-- The stored field that the expanded working set is matched with.  Once the set holds all nodes up
to `hops - 1` levels down, their children are the nodes 1 to `hops` levels down. -/
def targetField (a : Ancestry) : Scope → String
  | children | descendants _ => a.parents
  | exact _ => a.ancestors
  | ancestors _ => a.id

def expansion : Scope → Expansion
  | descendants hops => if 1 < hops then .descendants (hops - 1) else .none
  | ancestors hops => .ancestors hops
  | _ => .none

end Scope
end ArchivalQuery
