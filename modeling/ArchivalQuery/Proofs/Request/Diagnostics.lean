import ArchivalQuery.Proofs.Request.Refusals

/-! # Sound diagnostics

What the refusal of a request says of the request.  Names that are refused as unknown stand in the
request where such names are looked for, and two depths are refused exactly for the first step that
cannot be read, if it sets both of them.
-/
namespace ArchivalQuery.Request
open Checked (RefusesOnly)
open QueryError (Origin)

/-- Whether the two depths of a step are the first fault of a query. -/
def QueryConflictsAt (q : Json) (i : Nat) : Prop :=
  ∃ w, (stepValues q)[i]? = some w ∧ Step.Conflicted w ∧
    ∀ j < i, ∃ u s, (stepValues q)[j]? = some u ∧ Step.read j u = .ok s

/-- Whether the two depths of a step are the first fault of a request: its keys are those of its
kind and its roots are identifiers. -/
structure ConflictsAt (kind : RequestKind) (ms : List (String × Json)) (i : Nat) : Prop where
  keys : ∀ m ∈ ms, m.1 ∈ Grammar.requestKeys kind
  roots : ∀ w, ms.lookup "$roots" = some w → ∃ ids, w = .ofStrings ids
  query : ∃ q, ms.lookup "$query" = some q ∧ QueryConflictsAt q i

theorem readQuery_eq_depthConflict_iff {q : Json} {i : Nat} :
    readQuery q = .error (.depthConflict i) ↔ QueryConflictsAt q i := by
  obtain hq | ⟨hnone, hq⟩ := readQuery_cases q
  · rw [hq, Checked.mapM_eq_error_iff]
    have hstep (j : Nat) (p : Json × Nat) : (stepValues q).zipIdx[j]? = some p ↔
        (stepValues q)[j]? = some p.1 ∧ p.2 = j := by
      rw [List.getElem?_zipIdx, Nat.zero_add]
      cases (stepValues q)[j]? with
      | none => simp
      | some w => simp [Prod.ext_iff, eq_comm]
    simp only [hstep, Prod.exists, Step.read_eq_depthConflict_iff]
    constructor
    · rintro ⟨j, w, k, ⟨hw, rfl⟩, ⟨rfl, hconflict⟩, hbefore⟩
      refine ⟨w, hw, hconflict, fun j hj => ?_⟩
      obtain ⟨u, k, s, ⟨hu, rfl⟩, hread⟩ := hbefore j hj
      exact ⟨u, s, hu, hread⟩
    · rintro ⟨w, hw, hconflict, hbefore⟩
      refine ⟨i, w, i, ⟨hw, rfl⟩, ⟨rfl, hconflict⟩, fun j hj => ?_⟩
      obtain ⟨u, s, hu, hread⟩ := hbefore j hj
      exact ⟨u, j, s, ⟨hu, rfl⟩, hread⟩
  · rw [hq]
    apply iff_of_false
    · intro h
      cases h
    · rintro ⟨w, hw, -⟩
      rw [hnone] at hw
      cases hw

theorem readSection_eq_error_iff {α : Type} {ms : List (String × Json)} {key : RequestKey}
    {default : α} {read : Json → Checked α} {e : QueryError} :
    readSection ms key default read = .error e ↔
      ∃ v, ms.lookup key.token = some v ∧ read v = .error e := by
  unfold readSection
  cases ms.lookup key.token with
  | none => simp
  | some v => simp

theorem exists_readSection_roots_iff {ms : List (String × Json)} :
    (∃ ids, readSection ms .roots [] readRoots = .ok ids) ↔
      ∀ w, ms.lookup "$roots" = some w → ∃ ids, w = .ofStrings ids := by
  unfold readSection
  simp only [RequestKey.token]
  cases ms.lookup "$roots" with
  | none => simp
  | some v => simp [readRoots_eq_ok_iff]

theorem read_obj_eq_depthConflict_iff {kind : RequestKind} {limits : Limits}
    {ms : List (String × Json)} {i : Nat} :
    read kind limits (.obj ms) = .error (.depthConflict i) ↔ ConflictsAt kind ms i := by
  have hkeys : ms.forM (fun m => checkKey kind m.1) ≠ .error (.depthConflict i) :=
    Origin.ne_depthConflict (RefusesOnly.forM fun _ _ => refuses_checkKey ..) i
  have hroots : readSection ms .roots [] readRoots ≠ .error (.depthConflict i) :=
    Origin.ne_depthConflict (refuses_readSection ms .roots (fun v _ => refuses_readRoots v) _) i
  have hafter (roots : List String) (steps : List Step) := Origin.ne_depthConflict
    (refuses_afterSteps ms (fun _ _ => trivial) kind limits roots steps) i
  rw [read, Checked.bind_eq_error_of_ne hkeys]
  constructor
  · rintro ⟨⟨⟩, hallowed, h⟩
    obtain ⟨roots, hids, h⟩ := (Checked.bind_eq_error_of_ne hroots).mp h
    rw [Checked.bind_eq_error_iff_left (hafter roots), readSection_eq_error_iff] at h
    obtain ⟨q, hq, hconflict⟩ := h
    exact ⟨fun m hm => checkKey_eq_ok_iff.mp (Checked.forM_eq_ok_iff.mp hallowed m hm),
      exists_readSection_roots_iff.mp ⟨roots, hids⟩,
      q, hq, readQuery_eq_depthConflict_iff.mp hconflict⟩
  · rintro ⟨hallowed, hids, q, hq, hconflict⟩
    obtain ⟨roots, hids⟩ := exists_readSection_roots_iff.mpr hids
    refine ⟨(), Checked.forM_eq_ok_iff.mpr fun m hm => checkKey_eq_ok_iff.mpr (hallowed m hm),
      (Checked.bind_eq_error_of_ne hroots).mpr ⟨roots, hids, ?_⟩⟩
    rw [Checked.bind_eq_error_iff_left (hafter roots), readSection_eq_error_iff]
    exact ⟨q, hq, readQuery_eq_depthConflict_iff.mpr hconflict⟩

/-- The refusal of a value is sound, whatever the kind of request and the limits.  It is never for
size and never for an operator without a filter.  An unknown operator looks like an operator, is
none, and stands where one is expected in a step.  An unknown field looks like a reserved name, is
none, and is named as a field of a query, a sort key or a projected field.  Two depths are refused
exactly if they are the first fault: the keys of the request are those of its kind, its roots are
identifiers and every step before is read, whatever the two values are and the operators next to
them. -/
theorem diagnostics_are_sound (kind : RequestKind) (limits : Limits) (v : Json) :
    (∀ excess, read kind limits v ≠ .error (.tooLarge excess)) ∧
    (∀ op, read kind limits v ≠ .error (.unsupported op)) ∧
    (∀ t, read kind limits v = .error (.unknownOperator t) →
      t.toList.head? = some '$' ∧ t ∉ Grammar.operatorTokens.map Prod.fst ∧
        ∃ w, HasStep v w ∧ Expression.HasToken w t) ∧
    (∀ name, read kind limits v = .error (.unknownField name) →
      name.toList.head? = some '#' ∧ name ≠ "#all" ∧ name ∉ Field.reservedNames ∧
        NamesField v name) ∧
    ∀ i, read kind limits v = .error (.depthConflict i) ↔
      ∃ ms, v = .obj ms ∧ ConflictsAt kind ms i := by
  have hreason := (refuses_read_origin kind limits v).reason
  refine ⟨fun _ h => hreason _ h, fun _ h => hreason _ h, fun t h => ?_, fun name h => ?_,
    fun i => ?_⟩
  · obtain ⟨hplace, hdollar, hunknown⟩ := hreason _ h
    exact ⟨hdollar, hunknown, hplace⟩
  · obtain ⟨hplace, hash, hall, hunknown⟩ := hreason _ h
    exact ⟨hash, hall, hunknown, hplace⟩
  · constructor
    · intro h
      cases v with
      | obj ms => exact ⟨ms, rfl, read_obj_eq_depthConflict_iff.mp h⟩
      | _ => cases h
    · rintro ⟨ms, rfl, h⟩
      exact read_obj_eq_depthConflict_iff.mpr h

/-- A second step with two depths that are no integers and with an operator that is none, and the
same operator inside a negation. -/
theorem diagnostics_are_sound_unknown_operator :
    let step : Json := .obj [("$depth", .str "x"), ("$like", .null), ("$exactdepth", .null)]
    let nested : Json := .obj [("$query", .obj [("$not", .arr [.obj [("$like", .null)]])])]
    read .select {} (.obj [("$query", .arr [.obj [("$exists", .str "a")], step])]) =
        .error (.depthConflict 1) ∧
      read .select {} nested = .error (.unknownOperator "$like") ∧
      ∃ w, HasStep nested w ∧ Expression.HasToken w "$like" := by
  intro step nested
  have hfirst : Step.read 0 (.obj [("$exists", .str "a")]) =
      .ok ⟨.existence .present "a", .relative 1⟩ := rfl
  have hquery : QueryConflictsAt (.arr [.obj [("$exists", .str "a")], step]) 1 := by
    refine ⟨step, rfl, ⟨⟨_, rfl, by decide⟩, _, rfl, by decide⟩, fun j hj => ?_⟩
    obtain rfl : j = 0 := by omega
    exact ⟨_, _, rfl, hfirst⟩
  have hconflict : ConflictsAt .select
      [("$query", .arr [.obj [("$exists", .str "a")], step])] 1 :=
    ⟨List.forall_mem_singleton.mpr (by decide), nofun, _, rfl, hquery⟩
  have htoken : read .select {} nested = .error (.unknownOperator "$like") := rfl
  exact ⟨((diagnostics_are_sound ..).2.2.2.2 1).mpr ⟨_, rfl, hconflict⟩, htoken,
    ((diagnostics_are_sound ..).2.2.1 _ htoken).2.2⟩

end ArchivalQuery.Request
