import ArchivalQuery.Plan.Compile
import ArchivalQuery.Plan.Form
import ArchivalQuery.Request.Entry
import ArchivalQuery.Settings.Basic

/-! # From a text to its plan

A text is decoded, read and compiled; a refusal keeps the stage it comes from.  The plan is shown
together with the filter that the store runs first.
-/
namespace ArchivalQuery

/-- The stages on the way from a text to its plan. -/
inductive Stage
  | decode | read | compile
deriving DecidableEq, Repr

def Stage.failure : Stage → String
  | decode => "Failed to decode request"
  | read => "Failed to parse request"
  | compile => "Failed to compile request"

structure StageError where
  stage : Stage
  error : QueryError

def Stage.note {α : Type} (s : Stage) (r : Checked α) : Except StageError α :=
  r.mapError fun e => ⟨s, e⟩

namespace Plan

/-- The plan of a text whose request is pinned to an identifier. -/
def ofText (s : Settings) (kind : RequestKind) (c : Collection) (id : Option String)
    (text : String) : Except StageError Plan := do
  let v ← Stage.decode.note (Request.decode s.limits text)
  let r ← Stage.read.note (Request.ofValue kind s.limits v)
  Stage.compile.note ((r.pin id).compile s.ancestry c)

/-- The filter that the store runs first; null stands for a set still to be expanded. -/
def openingCommand (p : Plan) : Json :=
  if p.steps.isEmpty then p.lookupCommand else p.firstCommand?.getD .null

def overview (p : Plan) : Json := .obj [("command", p.openingCommand), ("plan", p.toJson)]

end Plan
end ArchivalQuery
