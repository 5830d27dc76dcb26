import ArchivalQuery.Plan.Compile
import ArchivalQuery.Proofs.Checked
import ArchivalQuery.Proofs.Depth

/-! # What plans are made of

A plan that is made has the steps of its request in their order, each with its scope and the filter
of its tree, and takes over everything else.
-/
namespace ArchivalQuery
variable {a : Ancestry}

theorem Step.compile_eq_ok_iff {s : Step} {index : Nat} {p : PlanStep} :
    s.compile a index = .ok p ↔ s.depth.check = .ok () ∧ ∃ query, s.node.filter a = .ok query ∧
      p = ⟨index, s.depth.scope, s.depth.scope.expansion, query, s.depth.scope.binding a⟩ := by
  unfold compile
  simp only [Checked.bind_eq_ok, Checked.pure_eq_ok, Depth.resolve_eq_ok_iff]
  constructor
  · intro h
    rcases h with ⟨_, ⟨hdepth, rfl⟩, query, hquery, rfl⟩
    exact ⟨hdepth, query, hquery, rfl⟩
  · intro h
    rcases h with ⟨hdepth, query, hquery, rfl⟩
    exact ⟨_, ⟨hdepth, rfl⟩, query, hquery, rfl⟩

namespace Request
variable {c : Collection} {r : Request} {p : Plan}

theorem compile_eq_ok_iff : r.compile a c = .ok p ↔
    ∃ steps, List.Forall₂ (fun q t => Step.compile a q.2 q.1 = .ok t) r.steps.zipIdx steps ∧
      p = ⟨r.kind, c, r.roots, steps, a.id, r.projection.document a, r.projection.usage,
        OrderBy.document a r.filter.orderBy, r.filter.offset, r.filter.limit,
        c.hints r.filter.hints, r.data, .null⟩ := by
  unfold compile
  simp only [Checked.bind_eq_ok, Checked.pure_eq_ok, Checked.mapM_eq_ok_iff, @eq_comm _ _ p]

theorem length_steps_of_compile (h : r.compile a c = .ok p) :
    p.steps.length = r.steps.length := by
  rcases compile_eq_ok_iff.mp h with ⟨steps, hsteps, rfl⟩
  rw [← hsteps.length_eq, List.length_zipIdx]

/-- The first step of a plan is compiled from the first one of its request. -/
theorem compile_head {s : Step} {ss : List Step} {t : PlanStep} {ts : List PlanStep}
    (h : r.compile a c = .ok p) (hs : r.steps = s :: ss) (ht : p.steps = t :: ts) :
    s.compile a 0 = .ok t := by
  rcases compile_eq_ok_iff.mp h with ⟨steps, hsteps, rfl⟩
  obtain rfl : steps = t :: ts := ht
  rw [hs, List.zipIdx_cons] at hsteps
  exact (List.forall₂_cons.mp hsteps).1

/-- The steps of a plan are compiled from those of its request. -/
theorem exists_compile_of_mem_steps (h : r.compile a c = .ok p) {t : PlanStep} (ht : t ∈ p.steps) :
    ∃ s ∈ r.steps, ∃ index, s.compile a index = .ok t := by
  rcases compile_eq_ok_iff.mp h with ⟨steps, hsteps, rfl⟩
  rcases Checked.exists_of_mem_mapM (Checked.mapM_eq_ok_iff.mpr hsteps) ht with
    ⟨⟨s, index⟩, hs, hcompile⟩
  exact ⟨s, List.fst_mem_of_mem_zipIdx hs, index, hcompile⟩

end Request
end ArchivalQuery
