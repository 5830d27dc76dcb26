import ArchivalQuery.Plan.Compile
import ArchivalQuery.Proofs.Depth
import ArchivalQuery.Proofs.Node.Flaws
import ArchivalQuery.Proofs.Node.Writable
import ArchivalQuery.Proofs.Request.Steps

/-! # Requests without a plan

A request is refused for its first flawed step, and a step for its depth before its tree.  The
depths of a request that is read name scopes and its trees are writable, so that its full-text
searches are its only flaws.
-/
namespace ArchivalQuery

def Depth.flaw? : Depth → Option QueryError
  | relative hops => if hops.toInt = 0 then some (.malformed .zeroDepth) else none
  | exact distance =>
    if distance.toInt < 0 then some (.malformed (.negativeDepth distance.toInt)) else none

theorem Depth.error?_check (depth : Depth) : depth.check.error? = depth.flaw? := by
  cases depth with
  | relative hops =>
    simp only [check, flaw?, ← Int32.toInt_inj, Int32.toInt_zero]
    split <;> rfl
  | exact distance =>
    simp only [check, flaw?, Int32.lt_iff_toInt_lt, Int32.toInt_zero]
    split <;> rfl

namespace Step
variable {a : Ancestry}

/-- Why a step has no plan: its depth, or else the first flaw of its tree. -/
def flaw? (s : Step) : Option QueryError :=
  s.depth.flaw?.or (s.node.subtrees.findSome? Node.flaw?)

theorem error?_compile (s : Step) (index : Nat) : (s.compile a index).error? = s.flaw? := by
  have tree (scope : Scope) : (do
      let query ← s.node.filter a
      return { index, scope, expansion := scope.expansion, query, binding := scope.binding a } :
        Checked PlanStep).error? = s.node.subtrees.findSome? Node.flaw? := by
    rw [Checked.error?_bind fun _ _ => Checked.error?_pure _, Option.or_none, Node.error?_filter]
  have hresolve : s.depth.resolve.error? = s.depth.flaw? := by
    rw [Depth.resolve, Checked.error?_bind fun _ _ => Checked.error?_pure _, Option.or_none,
      Depth.error?_check]
  rw [compile, Checked.error?_bind fun scope _ => tree scope, hresolve, flaw?]

end Step

namespace Request
variable {a : Ancestry}

theorem error?_compile (r : Request) (c : Collection) :
    (r.compile a c).error? = r.steps.findSome? Step.flaw? := by
  have hsteps : (r.steps.zipIdx.mapM fun p : Step × Nat => p.1.compile a p.2).error? =
      r.steps.findSome? Step.flaw? := by
    simp only [Checked.error?_mapM, Step.error?_compile]
    rw [← Function.comp_def Step.flaw? Prod.fst, ← List.findSome?_map, List.zipIdx_map_fst]
  rw [compile, Checked.error?_bind fun _ _ => Checked.error?_pure _, Option.or_none, hsteps]

theorem steps_pin (r : Request) (id : Option String) : (r.pin id).steps = r.steps := by
  cases id with
  | none => rfl
  | some id =>
    unfold pin
    dsimp only
    split <;> rfl

/-- The roots do not matter to whether a request compiles. -/
theorem exists_compile_pin_iff (r : Request) (id : Option String) (c : Collection) :
    (∃ p, (r.pin id).compile a c = .ok p) ↔ ∃ p, r.compile a c = .ok p := by
  simp only [← Checked.error?_eq_none_iff, error?_compile, steps_pin]

/-- The steps of a request that is read are read themselves. -/
theorem exists_read_of_mem_steps {kind : RequestKind} {limits : Limits} {v : Json} {r : Request}
    (h : read kind limits v = .ok r) {s : Step} (hs : s ∈ r.steps) :
    ∃ index w, Step.read index w = .ok s := by
  obtain ⟨index, w, -, hw⟩ := exists_hasStep_of_mem_steps h hs
  exact ⟨index, w, hw⟩

end Request

theorem Depth.category_of_flaw? {depth : Depth} {e : QueryError} (h : depth.flaw? = some e) :
    e.category = .badRequest := by
  unfold flaw? at h
  split at h
  all_goals
    split at h
    all_goals cases h
    rfl

theorem Node.category_of_flaw? {n : Node} {e : QueryError} (h : n.flaw? = some e) :
    e.category = .badRequest := by
  unfold flaw? at h
  split at h
  case h_1 =>
    cases h
    rfl
  case h_6 => cases h
  all_goals
    split at h
    all_goals cases h
    rfl

/-- A request is refused for what it asks for, and never for its size. -/
theorem Request.refuses_compile (a : Ancestry) (c : Collection) (r : Request) :
    (r.compile a c).RefusesOnly (·.category = .badRequest) := by
  refine ⟨fun e he => ?_⟩
  rw [← Checked.error?_eq_some_iff, error?_compile] at he
  rcases List.exists_of_findSome?_eq_some he with ⟨s, -, hs⟩
  rcases Option.or_eq_some_iff.mp hs with hdepth | ⟨-, htree⟩
  · exact Depth.category_of_flaw? hdepth
  · rcases List.exists_of_findSome?_eq_some htree with ⟨n, -, hn⟩
    exact Node.category_of_flaw? hn

end ArchivalQuery
