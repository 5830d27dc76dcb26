import ArchivalQuery.Proofs.Checked
import ArchivalQuery.Proofs.Json.Depth
import ArchivalQuery.Proofs.Json.Members
import ArchivalQuery.Request.Read

/-! # The values of steps

The steps of a request that is read come from values that stand inside the request.
-/
namespace ArchivalQuery.Request

/-- The values of the steps of a query; an object is its own only step. -/
def stepValues : Json → List Json
  | .arr vs => vs
  | .obj ms => [.obj ms]
  | _ => []

def HasStep (v w : Json) : Prop :=
  ∃ ms q, v = .obj ms ∧ ms.lookup "$query" = some q ∧ w ∈ stepValues q

/-- A query is read step by step, unless it has no steps for being of another shape. -/
theorem readQuery_cases (q : Json) :
    readQuery q = (stepValues q).zipIdx.mapM (fun p => Step.read p.2 p.1) ∨
      stepValues q = [] ∧ readQuery q = malformed (.queryShape q) := by
  cases q with
  | arr vs => exact .inl rfl
  | obj ms => exact .inl (by simp [readQuery, stepValues])
  | _ => exact .inr ⟨rfl, rfl⟩

theorem depth_le_of_mem_stepValues {q w : Json} (hw : w ∈ stepValues q) : w.depth ≤ q.depth := by
  cases q with
  | arr vs => exact Nat.le_of_lt (Json.depth_lt_arr hw)
  | obj ms => exact Nat.le_of_eq (congrArg Json.depth (List.mem_singleton.mp hw))
  | _ => cases hw

/-- A step stands inside its request. -/
theorem HasStep.depth_lt {v w : Json} (h : HasStep v w) : w.depth < v.depth := by
  obtain ⟨ms, q, rfl, hq, hw⟩ := h
  exact Nat.lt_of_le_of_lt (depth_le_of_mem_stepValues hw) (Json.depth_lt_obj (Json.mem_of_lookup hq))

/-- The steps of a request that is read are read themselves, from its steps. -/
theorem exists_hasStep_of_mem_steps {kind : RequestKind} {limits : Limits} {v : Json} {r : Request}
    (h : read kind limits v = .ok r) {s : Step} (hs : s ∈ r.steps) :
    ∃ index w, HasStep v w ∧ Step.read index w = .ok s := by
  cases v with
  | obj ms =>
    simp only [read, Checked.bind_eq_ok, Checked.pure_eq_ok] at h
    obtain ⟨_, -, ids, -, ss, hss, f, -, p, -, data, -, rfl⟩ := h
    unfold readSection at hss
    cases hq : ms.lookup RequestKey.query.token with
    | none =>
      rw [hq] at hss
      cases hss
      exact absurd hs List.not_mem_nil
    | some q =>
      rw [hq] at hss
      obtain hquery | ⟨-, hquery⟩ := readQuery_cases q
      · obtain ⟨⟨w, index⟩, hw, hread⟩ := Checked.exists_of_mem_mapM (hquery.symm.trans hss) hs
        exact ⟨index, w, ⟨ms, q, rfl, hq, List.fst_mem_of_mem_zipIdx hw⟩, hread⟩
      · exact absurd (hquery.symm.trans hss) Checked.malformed_ne_ok
  | _ => exact absurd h Checked.malformed_ne_ok

end ArchivalQuery.Request
