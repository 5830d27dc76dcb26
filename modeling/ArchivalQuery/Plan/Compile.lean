import ArchivalQuery.Filter.Expression
import ArchivalQuery.Plan.Basic
import ArchivalQuery.Request.Basic

/-! # From a request to its plan

Steps are compiled in order; in each the depth is resolved before the expression, and the first
refusal is that of the request.
-/
namespace ArchivalQuery

/-- The document of a projection.  If all fields are included it is empty; otherwise the last entry
for a stored name decides. -/
def Projection.document (a : Ancestry) (p : Projection) : Json :=
  let all := p.fields.any fun f => f.included && (Field.storedName? a f.field).isNone
  if all then .obj []
  else .obj (Json.ofWrites (p.fields.filterMap fun f =>
    (Field.storedName? a f.field).map fun name => (name, .ofNat (if f.included then 1 else 0))))

def Direction.sign : Direction → Json
  | ascending => .ofInt32 1
  | descending => .ofInt32 (-1)

/-- The document of sort keys; the last entry for a stored name decides. -/
def OrderBy.document (a : Ancestry) (keys : List OrderBy) : Json :=
  .obj (Json.ofWrites (keys.map fun k => (Field.stored a k.field, k.direction.sign)))

def Scope.binding (a : Ancestry) (s : Scope) : Binding where
  field := s.targetField a
  window := match s with
    | exact depth => some ⟨a.minDepth, a.maxDepth, depth⟩
    | _ => none

def Step.compile (a : Ancestry) (index : Nat) (s : Step) : Checked PlanStep := do
  let scope ← s.depth.resolve
  let query ← s.node.filter a
  return { index, scope, expansion := scope.expansion, query, binding := scope.binding a }

/-- The hints of a request, with the one that object groups need. -/
def Collection.hints (c : Collection) (hints : List Hint) : List Hint :=
  match c with
  | units => hints
  | objectGroups => if .objectGroups ∈ hints then hints else hints ++ [.objectGroups]

def Request.compile (a : Ancestry) (c : Collection) (r : Request) : Checked Plan := do
  let steps ← r.steps.zipIdx.mapM fun p => p.1.compile a p.2
  return {
    kind := r.kind
    collection := c
    roots := r.roots
    steps
    idField := a.id
    projection := r.projection.document a
    usage := r.projection.usage
    sort := OrderBy.document a r.filter.orderBy
    offset := r.filter.offset
    limit := r.filter.limit
    hints := c.hints r.filter.hints
    data := r.data }

end ArchivalQuery
