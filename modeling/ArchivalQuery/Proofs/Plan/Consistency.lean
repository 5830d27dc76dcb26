import ArchivalQuery.Proofs.Plan.FirstStep
import ArchivalQuery.Proofs.Request.Sections
import ArchivalQuery.Proofs.Settings.Validity

/-! # Consistent plans

What every plan can be relied on for, whatever the request: a limit, hints without repetitions, data
exactly if the plan writes, and a step for each step of the request that is bound to its scope.
-/
namespace ArchivalQuery
open ArchivalQuery.Filter (DepthWindow)

/-- Whether a step of a plan is what a step of a request asks for at some position. -/
structure PlanStep.Follows (a : Ancestry) (position : Nat) (s : Step) (p : PlanStep) : Prop where
  index : p.index = position
  scope : s.depth.resolve = .ok p.scope
  query : s.node.filter a = .ok p.query
  expansion : p.expansion = p.scope.expansion
  hops : p.expansion ≠ .descendants 0 ∧ p.expansion ≠ .ancestors 0
  field : p.binding.field = match p.scope with
    | .children | .descendants _ => a.parents
    | .ancestors _ => a.id
    | .exact _ => a.ancestors
  window (w : DepthWindow) : p.binding.window = some w ↔
    ∃ depth, p.scope = .exact depth ∧ w = ⟨a.minDepth, a.maxDepth, depth⟩
  command (ids : List String) : p.command? ids = none ↔ 0 < position ∧ ids = []

/-- Whether a plan keeps what the settings and its request promise. -/
structure Plan.Consistent (s : Settings) (c : Collection) (r : Request) (p : Plan) : Prop where
  kind : p.kind = r.kind
  limit : 1 ≤ p.limit ∧ p.limit ≤ s.limits.defaultLimit
  hints_nodup : p.hints.Nodup
  hints_start : r.filter.hints <+: p.hints
  hints_groups : c = .objectGroups → .objectGroups ∈ p.hints
  data_some : p.data.isSome ↔ p.kind = .insert ∨ p.kind = .update
  data_object (v : Json) : p.data = some v → ∃ ms, v = .obj ms
  steps_length : p.steps.length = r.steps.length
  steps (i : Nat) (hr : i < r.steps.length) (hp : i < p.steps.length) :
    p.steps[i].Follows s.ancestry i r.steps[i]
  first : p.firstCommand?.isSome ↔
    ∃ t ts, r.steps = t :: ts ∧ (t.depth = .relative 1 ∨ ∃ distance, t.depth = .exact distance)

theorem Scope.window_binding {a : Ancestry} {scope : Scope} {w : DepthWindow} :
    (scope.binding a).window = some w ↔
      ∃ depth, scope = .exact depth ∧ w = ⟨a.minDepth, a.maxDepth, depth⟩ := by
  cases scope <;> simp [binding, eq_comm]

theorem Scope.field_binding (a : Ancestry) (scope : Scope) :
    (scope.binding a).field = match scope with
      | .children | .descendants _ => a.parents
      | .ancestors _ => a.id
      | .exact _ => a.ancestors := by
  cases scope <;> rfl

theorem PlanStep.command?_eq_none_iff {p : PlanStep} {ids : List String} :
    p.command? ids = none ↔ 0 < p.index ∧ ids = [] := by
  unfold command?
  split <;> simp_all

theorem Step.follows_of_compile {a : Ancestry} {index : Nat} {s : Step} {p : PlanStep}
    (h : s.compile a index = .ok p) : p.Follows a index s := by
  rcases compile_eq_ok_iff.mp h with ⟨hdepth, query, hquery, rfl⟩
  refine ⟨rfl, Depth.resolve_eq_ok_iff.mpr ⟨hdepth, rfl⟩, hquery, rfl, ?_, Scope.field_binding a _,
    fun _ => Scope.window_binding, fun _ => PlanStep.command?_eq_none_iff⟩
  rcases Depth.expansion_scope_cases hdepth with ⟨-, hnone⟩ | ⟨-, hops, hne, hdown | hup⟩
  · simp [hnone]
  · simp [hdown, hne]
  · simp [hup, hne]

structure FilterSection.Within (limits : Limits) (f : FilterSection) : Prop where
  limit : 1 ≤ f.limit ∧ f.limit ≤ limits.defaultLimit
  hints : f.hints.Nodup

/-- The data that goes with a kind: an object if the kind writes, otherwise nothing. -/
inductive RequestKind.Carries : RequestKind → Option Json → Prop
  | nothing : Carries select none
  | object {kind : RequestKind} (hkind : kind = insert ∨ kind = update)
      (ms : List (String × Json)) : Carries kind (some (.obj ms))

namespace RequestKind.Carries
variable {kind : RequestKind} {data : Option Json}

theorem isSome_iff (h : kind.Carries data) : data.isSome ↔ kind = insert ∨ kind = update := by
  cases h with
  | nothing => simp
  | object hkind ms => simp [hkind]

theorem exists_obj (h : kind.Carries data) {v : Json} (hv : data = some v) : ∃ ms, v = .obj ms := by
  cases h with
  | nothing => cases hv
  | object hkind ms => exact ⟨ms, (Option.some.inj hv).symm⟩

end RequestKind.Carries

namespace Request
variable {c : Collection} {r : Request} {p : Plan}

theorem follows_of_compile {a : Ancestry} (h : r.compile a c = .ok p) (i : Nat)
    (hr : i < r.steps.length) (hp : i < p.steps.length) : p.steps[i].Follows a i r.steps[i] := by
  rcases compile_eq_ok_iff.mp h with ⟨steps, hsteps, rfl⟩
  have hi := hsteps.get (by rwa [List.length_zipIdx]) hp
  simp only [List.get_eq_getElem, List.getElem_zipIdx, Nat.zero_add] at hi
  exact Step.follows_of_compile hi

/-- The first step is sent as it is unless its working set has to be expanded before. -/
theorem isSome_firstCommand?_iff {a : Ancestry} (h : r.compile a c = .ok p) :
    p.firstCommand?.isSome ↔ ∃ t ts, r.steps = t :: ts ∧
      (t.depth = .relative 1 ∨ ∃ distance, t.depth = .exact distance) := by
  cases hr : r.steps with
  | nil =>
    rcases compile_eq_ok_iff.mp h with ⟨steps, hsteps, rfl⟩
    rw [hr] at hsteps
    cases hsteps
    simp [Plan.firstCommand?]
  | cons t ts =>
    obtain ⟨q, qs, hp⟩ : ∃ q qs, p.steps = q :: qs := by
      rcases compile_eq_ok_iff.mp h with ⟨steps, hsteps, rfl⟩
      rw [hr] at hsteps
      rcases List.forall₂_cons_left_iff.mp hsteps with ⟨q, qs, -, -, rfl⟩
      exact ⟨q, qs, rfl⟩
    rcases Step.compile_eq_ok_iff.mp (compile_head h hr hp) with ⟨hdepth, query, -, rfl⟩
    have hsent : (PlanStep.mk 0 t.depth.scope t.depth.scope.expansion query
        (t.depth.scope.binding a)).command? p.roots ≠ none := by
      rw [ne_eq, PlanStep.command?_eq_none_iff]
      exact fun hn => absurd hn.1 (Nat.lt_irrefl 0)
    simp only [Plan.firstCommand?, hp, List.cons.injEq, ← Option.ne_none_iff_isSome]
    rcases Depth.expansion_scope_cases hdepth with ⟨hkind, hnone⟩ | ⟨hkind, hops, -, hexp⟩
    · rw [if_pos hnone]
      exact iff_of_true hsent ⟨t, ts, ⟨rfl, rfl⟩, hkind⟩
    · have hne : t.depth.scope.expansion ≠ .none := by
        rcases hexp with hdown | hup
        · simp [hdown]
        · simp [hup]
      rw [if_neg hne]
      apply iff_of_false (not_not.mpr rfl)
      rintro ⟨t', ts', ⟨rfl, rfl⟩, hone | ⟨distance, hexact⟩⟩
      · exact hkind.1 hone
      · exact hkind.2 distance hexact

theorem nodup_addHint {hints : List Hint} (h : hints.Nodup) (hint : Hint) :
    (addHint hints hint).Nodup := by
  unfold addHint
  split
  · exact h
  · rename_i hnew
    rw [← List.concat_eq_append]
    exact h.concat hnew

theorem nodup_foldl_addHint {hints : List Hint} (h : hints.Nodup) (ws : List Hint) :
    (ws.foldl addHint hints).Nodup := by
  induction ws generalizing hints with
  | nil => exact h
  | cons w ws ih => exact ih (nodup_addHint h w)

theorem nodup_of_readHints {v : Json} {hints : List Hint} (h : readHints v = .ok hints) :
    hints.Nodup := by
  unfold readHints at h
  split at h
  · simp only [Checked.bind_eq_ok, Checked.pure_eq_ok] at h
    rcases h with ⟨ws, -, rfl⟩
    exact nodup_foldl_addHint List.nodup_nil ws
  · exact absurd h Checked.malformed_ne_ok

theorem le_of_readLimit {limits : Limits} (hl : 1 ≤ limits.defaultLimit) {v : Json} {n : UInt64}
    (h : readLimit limits v = .ok n) : 1 ≤ n ∧ n ≤ limits.defaultLimit := by
  rcases readLimit_eq_ok_iff.mp h with ⟨k, -, hk, hn⟩
  simp only [UInt64.le_iff_toNat_le, UInt64.toNat_one] at hl ⊢
  omega

theorem within_of_readFilterOption {limits : Limits} (hl : 1 ≤ limits.defaultLimit)
    {f f' : FilterSection} {m : String × Json} (hf : f.Within limits)
    (h : readFilterOption limits f m = .ok f') : f'.Within limits := by
  unfold readFilterOption at h
  split at h
  · exact absurd h Checked.malformed_ne_ok
  all_goals
    simp only [Checked.bind_eq_ok, Checked.pure_eq_ok] at h
    rcases h with ⟨x, hx, rfl⟩
  · exact ⟨hf.limit, hf.hints⟩
  · exact ⟨le_of_readLimit hl hx, hf.hints⟩
  · exact ⟨hf.limit, nodup_of_readHints hx⟩
  · exact ⟨hf.limit, hf.hints⟩

theorem within_defaultFilter {limits : Limits} (hl : 1 ≤ limits.defaultLimit) :
    (defaultFilter limits).Within limits :=
  ⟨⟨hl, UInt64.le_refl _⟩, List.nodup_nil⟩

theorem within_of_readFilter {limits : Limits} (hl : 1 ≤ limits.defaultLimit) {v : Json}
    {f : FilterSection} (h : readFilter limits v = .ok f) : f.Within limits := by
  rcases Checked.bind_eq_ok.mp h with ⟨ms, -, hfold⟩
  refine Checked.invariant_of_foldlM (fun m f f' hf hm => ?_) (within_defaultFilter hl) hfold
  exact within_of_readFilterOption hl hf hm

theorem carries_of_readData {kind : RequestKind} {v data : Option Json}
    (h : readData kind v = .ok data) : kind.Carries data := by
  unfold readData at h
  split at h
  · rename_i hkind
    split at h
    · cases h
      refine .object ?_ _
      cases kind
      · cases hkind
      · exact .inl rfl
      · exact .inr rfl
    · exact absurd h Checked.malformed_ne_ok
    · exact absurd h Checked.malformed_ne_ok
  · rename_i hkind
    cases h
    cases kind
    · exact .nothing
    · exact absurd rfl hkind
    · exact absurd rfl hkind

/-- What the reader promises of the options and the data of a request. -/
theorem within_and_carries_of_read {kind : RequestKind} {limits : Limits}
    (hl : 1 ≤ limits.defaultLimit) {v : Json} (h : read kind limits v = .ok r) :
    r.filter.Within limits ∧ r.kind.Carries r.data := by
  unfold read at h
  split at h
  · simp only [Checked.bind_eq_ok, Checked.pure_eq_ok] at h
    rcases h with ⟨_, -, ids, -, ss, -, f, hf, q, -, data, hdata, rfl⟩
    refine ⟨?_, carries_of_readData hdata⟩
    unfold readSection at hf
    split at hf
    · exact within_of_readFilter hl hf
    · cases hf
      exact within_defaultFilter hl
  · exact absurd h Checked.malformed_ne_ok

end Request

namespace Collection
variable {hs : List Hint}

theorem hints_nodup (h : hs.Nodup) (c : Collection) : (c.hints hs).Nodup := by
  cases c with
  | units => exact h
  | objectGroups => exact Request.nodup_addHint h .objectGroups

theorem prefix_hints (c : Collection) (hs : List Hint) : hs <+: c.hints hs := by
  cases c with
  | units => exact List.prefix_rfl
  | objectGroups =>
    unfold hints
    dsimp only
    split
    · exact List.prefix_rfl
    · exact List.prefix_append hs _

theorem mem_hints_objectGroups (hs : List Hint) :
    .objectGroups ∈ objectGroups.hints hs := by
  unfold hints
  dsimp only
  split
  · assumption
  · exact List.mem_append_right hs (List.mem_singleton_self _)

end Collection

theorem Settings.one_le_defaultLimit {s : Settings} (h : s.check = .ok ()) :
    1 ≤ s.limits.defaultLimit := by
  have hne : s.limits.defaultLimit ≠ 0 := (check_eq_ok_iff.mp h).nonzero .results
  rw [ne_eq, ← UInt64.toNat_inj, UInt64.toNat_zero] at hne
  rw [UInt64.le_iff_toNat_le, UInt64.toNat_one]
  omega

/-- Every plan of a request that is read is consistent, under its own roots and under others. -/
theorem Plan.consistent_of_compile {s : Settings} (hs : s.check = .ok ()) {kind : RequestKind}
    {v : Json} {r r' : Request} (hread : Request.read kind s.limits v = .ok r)
    (hr : r' = r ∨ ∃ roots, r' = r.resetRoots roots) {c : Collection} {p : Plan}
    (hp : r'.compile s.ancestry c = .ok p) : p.Consistent s c r' := by
  have hoptions : r'.filter.Within s.limits ∧ r'.kind.Carries r'.data := by
    have h := Request.within_and_carries_of_read (Settings.one_le_defaultLimit hs) hread
    rcases hr with rfl | ⟨roots, rfl⟩
    exacts [h, h]
  rcases hoptions with ⟨hfilter, hdata⟩
  have hsteps := Request.follows_of_compile hp
  have hfirst := Request.isSome_firstCommand?_iff hp
  have hlength := Request.length_steps_of_compile hp
  rcases Request.compile_eq_ok_iff.mp hp with ⟨steps, -, rfl⟩
  refine ⟨rfl, hfilter.limit, c.hints_nodup hfilter.hints, c.prefix_hints _, ?_, hdata.isSome_iff,
    fun v => hdata.exists_obj, hlength, hsteps, hfirst⟩
  rintro rfl
  exact Collection.mem_hints_objectGroups _

theorem Plan.consistent_of_compile_insert :
    ∃ r p, Settings.check {} = .ok () ∧ Request.read .insert {} (.obj [("$roots", .ofStrings ["a"]),
        ("$query", .arr [.obj [("$exists", .str "Title"), ("$depth", .ofInt32 (-1))],
          .obj [("$eq", .obj [("Size", .ofNat 3)])]]),
        ("$filter", .obj [("$limit", .ofNat 20000), ("$hint", .ofStrings ["units", "units"])]),
        ("$data", .obj [("Title", .str "Charter")])]) = .ok r ∧
      (r.resetRoots ["b"]).compile {} .objectGroups = .ok p ∧
      p.Consistent {} .objectGroups (r.resetRoots ["b"]) := by
  have hread : Request.read .insert {} (.obj [("$roots", .ofStrings ["a"]),
      ("$query", .arr [.obj [("$exists", .str "Title"), ("$depth", .ofInt32 (-1))],
        .obj [("$eq", .obj [("Size", .ofNat 3)])]]),
      ("$filter", .obj [("$limit", .ofNat 20000), ("$hint", .ofStrings ["units", "units"])]),
      ("$data", .obj [("Title", .str "Charter")])]) = .ok _ := rfl
  exact ⟨_, _, rfl, hread, rfl, consistent_of_compile rfl hread (.inr ⟨_, rfl⟩) rfl⟩

end ArchivalQuery
