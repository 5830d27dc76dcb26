import ArchivalQuery.Plan.Form
import ArchivalQuery.Proofs.Plan.Consistency
import ArchivalQuery.Proofs.Plan.Documents
import ArchivalQuery.Proofs.Request.Form

/-! # Plans and envelopes that are read back

The records of plans and envelopes are read back.  This holds of the plans that requests compile to,
in any context, and of those that come from a record.
-/
namespace ArchivalQuery
open Json (record Draft Lossless)
open ArchivalQuery.Filter (DepthWindow)

theorem Scope.lossless (s : Scope) : Lossless toJson ofDraft? s := by
  cases s
  all_goals
    refine Json.lossless_of_variant rfl (by simp) (by simp) fun d hvariant hfields => ?_
    simp only [List.map_cons, List.map_nil, Option.map_some] at hfields
    simp [ofDraft?, hvariant, hfields, Draft.view?_ofUInt32]

theorem Expansion.lossless (e : Expansion) : Lossless toJson ofDraft? e := by
  cases e
  all_goals
    refine Json.lossless_of_variant rfl (by simp) (by simp) fun d hvariant hfields => ?_
    simp only [List.map_cons, List.map_nil, Option.map_some] at hfields
    simp [ofDraft?, hvariant, hfields, Draft.view?_ofUInt32]

theorem Filter.DepthWindow.lossless (w : DepthWindow) : Lossless toJson ofDraft? w := by
  refine Json.lossless_of_record rfl (by simp) (by simp) fun d hfields => ?_
  simp only [List.map_cons, List.map_nil, Option.map_some] at hfields
  simp [ofDraft?, hfields, Draft.view?_ofUInt32]

theorem Binding.lossless (b : Binding) : Lossless toJson ofDraft? b := by
  have hwindow : Draft.optional? DepthWindow.ofDraft?
      ((b.window.map DepthWindow.toJson).map Json.draft) = some b.window :=
    Draft.optional?_map fun w _ => ⟨w.lossless.read_write, nofun⟩
  refine Json.lossless_of_record rfl (by simp) ?_ fun d hfields => ?_
  · simpa using fun w _ => w.lossless.distinct
  · simp only [List.map_cons, List.map_nil, Option.map_some] at hfields
    simp [ofDraft?, hfields, hwindow, -Option.map_map]

structure PlanStep.Kept (s : PlanStep) : Prop where
  index : s.index < UInt64.size
  query : s.query.Distinct

theorem PlanStep.Kept.lossless {s : PlanStep} (hs : s.Kept) : Lossless toJson ofDraft? s := by
  have hscalar : (Json.ofNat s.index).Distinct :=
    Json.distinct_of_isScalar (Json.isScalar_ofNat hs.index)
  rcases Option.map_eq_some_iff.mp (Draft.view?_ofNat hs.index) with ⟨index, hread, hindex⟩
  refine Json.lossless_of_record rfl (by simp) ?_ fun d hfields => ?_
  · simp [hscalar, hs.query, s.scope.lossless.distinct, s.expansion.lossless.distinct,
      s.binding.lossless.distinct]
  · simp only [List.map_cons, List.map_nil, Option.map_some] at hfields
    simp [ofDraft?, hfields, hread, hindex, hs.query.value?_draft, s.scope.lossless.read_write,
      s.expansion.lossless.read_write, s.binding.lossless.read_write]

theorem Collection.ofDraft?_token (c : Collection) : ofDraft? (.str c.token) = some c := by
  cases c <;> rfl

namespace Plan

structure Kept (p : Plan) : Prop where
  steps : ∀ s ∈ p.steps, s.Kept
  projection : p.projection.Distinct
  sort : p.sort.Distinct
  data : Json.Kept p.data
  context : p.context.Distinct

/-- A context of null is left out, and what is left out is read as null. -/
theorem value?_context {context : Json} (h : context.Distinct) :
    (((if context = .null then none else some context).map Json.draft).getD .null).value? =
      some context := by
  by_cases hnull : context = .null
  · rw [if_pos hnull, hnull]
    rfl
  · rw [if_neg hnull]
    exact h.value?_draft

theorem Kept.lossless {p : Plan} (hp : p.Kept) : Lossless toJson ofDraft? p := by
  have hsteps := Lossless.list fun s hs => (hp.steps s hs).lossless
  refine Json.lossless_of_record rfl (by simp) ?_ fun d hfields => ?_
  · simpa [Json.distinct_ofStrings, hsteps.distinct, Hint.distinct_listToJson, hp.projection,
      hp.sort, hp.context] using fun v hv => (hp.data v hv).1
  · simp only [List.map_cons, List.map_nil, Option.map_some] at hfields
    simp [ofDraft?, hfields, RequestKind.ofDraft?_token, Collection.ofDraft?_token,
      Draft.view?_ofStrings, hsteps.read_write, hp.projection.value?_draft, hp.sort.value?_draft,
      Draft.optional?_str, Draft.view?_ofUInt64, Hint.list?_listToJson,
      Draft.optional?_value hp.data, value?_context hp.context, -Option.map_map]

end Plan

theorem PlanStep.kept_of_ofDraft? {d : Draft} {s : PlanStep} (h : ofDraft? d = some s) :
    s.Kept := by
  rcases Option.bind_eq_some_iff.mp h with ⟨fs, -, h⟩
  split at h
  · simp only [Option.bind_eq_bind, Option.bind_eq_some_iff, Option.pure_def,
      Option.some.injEq] at h
    rcases h with ⟨index, -, scope, -, expansion, -, query, hquery, binding, -, rfl⟩
    exact ⟨index.toNat_lt, Draft.distinct_of_value? hquery⟩
  · cases h

namespace Plan

theorem kept_of_ofDraft? {d : Draft} {p : Plan} (h : ofDraft? d = some p) : p.Kept := by
  rcases Option.bind_eq_some_iff.mp h with ⟨fs, -, h⟩
  split at h
  · simp only [Option.bind_eq_bind, Option.bind_eq_some_iff, Option.pure_def,
      Option.some.injEq] at h
    rcases h with ⟨kind, -, collection, -, roots, -, steps, hsteps, projection, hprojection,
      usage, -, sort, hsort, offset, -, limit, -, hints, -, data, hdata, context, hcontext, rfl⟩
    refine ⟨fun s hs => ?_, Draft.distinct_of_value? hprojection, Draft.distinct_of_value? hsort,
      Json.kept_of_optional? hdata, Draft.distinct_of_value? hcontext⟩
    rcases Draft.exists_of_mem_list? hsteps hs with ⟨d, hd⟩
    exact PlanStep.kept_of_ofDraft? hd
  · cases h

/-- The documents of a compiled plan come from a kept request, and its steps are numbered from 0. -/
theorem kept_of_compile {a : Ancestry} {c : Collection} {r : Request} {p : Plan} (hr : r.Kept)
    (hlength : r.steps.length ≤ UInt64.size) (h : r.compile a c = .ok p) : p.Kept := by
  have hsteps : ∀ s ∈ p.steps, s.Kept := by
    intro s hs
    rcases List.mem_iff_getElem.mp hs with ⟨i, hi, rfl⟩
    have hir : i < r.steps.length := Request.length_steps_of_compile h ▸ hi
    have hfollows := Request.follows_of_compile h i hir hi
    constructor
    · rw [hfollows.index]
      exact Nat.lt_of_lt_of_le hir hlength
    · exact (hr.steps _ (List.getElem_mem hir)).distinct_filter hfollows.query
  rcases Request.compile_eq_ok_iff.mp h with ⟨steps, -, rfl⟩
  exact ⟨hsteps, r.projection.distinct_document a, OrderBy.distinct_document a _, hr.data, trivial⟩

/-- The plans that there are: requests compile to them, or they come from a record; later they may
get another context.  Positions of steps are machine words. -/
inductive Obtained : Plan → Prop
  | compiled {a : Ancestry} {c : Collection} {r : Request} (hr : r.Obtained)
      (hlength : r.steps.length ≤ UInt64.size) {p : Plan} (h : r.compile a c = .ok p) : Obtained p
  | ofRecord {d : Draft} {p : Plan} (h : ofDraft? d = some p) : Obtained p
  | inContext {p : Plan} (hp : Obtained p) {context : Json} (h : context.Distinct) :
      Obtained { p with context }

theorem Obtained.kept {p : Plan} (hp : p.Obtained) : p.Kept := by
  induction hp with
  | compiled hr hlength h => exact kept_of_compile hr.kept hlength h
  | ofRecord h => exact kept_of_ofDraft? h
  | inContext _ h ih => exact ⟨ih.steps, ih.projection, ih.sort, ih.data, h⟩

end Plan

theorem Hits.lossless (h : Hits) : Lossless toJson ofDraft? h := by
  refine Json.lossless_of_record rfl (by simp) (by simp) fun d hfields => ?_
  simp only [List.map_cons, List.map_nil, Option.map_some] at hfields
  simp [ofDraft?, hfields, Draft.view?_ofUInt64]

namespace Envelope

structure Distinct (e : Envelope) : Prop where
  context : e.context.Distinct
  results : ∀ v ∈ e.results, v.Distinct

theorem Distinct.lossless {e : Envelope} (he : e.Distinct) : Lossless toJson ofDraft? e := by
  have hresults : (Json.arr e.results).Distinct := Json.distinct_arr_iff.mpr he.results
  refine Json.lossless_of_record rfl (by simp) ?_ fun d hfields => ?_
  · simp [e.hits.lossless.distinct, he.context, hresults]
  · simp only [List.map_cons, List.map_nil, Option.map_some] at hfields
    simp [ofDraft?, hfields, e.hits.lossless.read_write, he.context.value?_draft,
      Draft.view?_draft hresults, Json.arr?]

theorem distinct_of_ofDraft? {d : Draft} {e : Envelope} (h : ofDraft? d = some e) :
    e.Distinct := by
  rcases Option.bind_eq_some_iff.mp h with ⟨fs, -, h⟩
  split at h
  · simp only [Option.bind_eq_bind, Option.bind_eq_some_iff, Option.pure_def,
      Option.some.injEq] at h
    rcases h with ⟨hits, -, context, hcontext, results, hresults, rfl⟩
    exact ⟨Draft.distinct_of_value? hcontext, fun v => Draft.distinct_of_view?_arr? hresults⟩
  · cases h

end Envelope

/-- Requests, plans and envelopes are read back from their records.  No part of a request or a plan
that may be absent is there as null, so that what is written of a record that was read does not
change any more. -/
theorem lossless_of_obtained :
    (∀ r : Request, r.Obtained → Lossless Request.toJson Request.ofDraft? r ∧ r.NullFree) ∧
      (∀ p : Plan, p.Obtained → Lossless Plan.toJson Plan.ofDraft? p ∧ p.data ≠ some .null) ∧
      (∀ e : Envelope, e.Distinct → Lossless Envelope.toJson Envelope.ofDraft? e) ∧
      Json.Stable Request.toJson Request.ofDraft? ∧ Json.Stable Plan.toJson Plan.ofDraft? ∧
      Json.Stable Envelope.toJson Envelope.ofDraft? := by
  refine ⟨fun r hr => ⟨hr.kept.lossless, hr.kept.nullFree⟩,
    fun p hp => ⟨hp.kept.lossless, fun hnull => (hp.kept.data .null hnull).2 rfl⟩,
    fun e he => he.lossless, ?_, ?_, ?_⟩
  · exact Json.stable_of_lossless fun _ _ h => (Request.kept_of_ofDraft? h).lossless
  · exact Json.stable_of_lossless fun _ _ h => (Plan.kept_of_ofDraft? h).lossless
  · exact Json.stable_of_lossless fun _ _ h => (Envelope.distinct_of_ofDraft? h).lossless

/-- A record with null for a bound and for its data, and what becomes of it. -/
theorem lossless_of_obtained_range :
    let bounds : Draft := .obj [("gt", .null), ("lte", (Json.ofNat 3).draft)]
    let node : Draft := .obj [("op", .str "not"), ("kind", .str "boolean"), ("children", .arr
      [.obj [("kind", .str "range"), ("field", .str "Size"), ("bounds", bounds)]])]
    let filter := (FilterSection.toJson { limit := 5 }).draft
    let d : Draft := .obj [("kind", .str "select"), ("roots", .arr []),
      ("steps", .arr [.obj [("depth", (Depth.exact 2).toJson.draft), ("node", node)]]),
      ("filter", filter), ("projection", .obj [("fields", .arr [])]), ("data", .null)]
    ∃ r p, Request.ofDraft? d = some r ∧ r.compile {} .units = .ok p ∧
      (Lossless Request.toJson Request.ofDraft? r ∧ r.NullFree) ∧
      (Lossless Plan.toJson Plan.ofDraft? { p with context := .arr [.null] } ∧
        p.data ≠ some .null) ∧
      Lossless Envelope.toJson Envelope.ofDraft? (.ofPlan p 1 [.null]) ∧
      (Request.ofDraft? r.toJson.draft).map Request.toJson = some r.toJson := by
  intro bounds node filter d
  rcases lossless_of_obtained with ⟨hrequests, hplans, henvelopes, hstable, -, -⟩
  have hread : Request.ofDraft? d = some _ := rfl
  have hr := Request.Obtained.ofRecord hread
  refine ⟨_, _, hread, rfl, hrequests _ hr,
    ⟨(hplans _ (.inContext (.compiled hr ?_ rfl) ?_)).1, ?_⟩, henvelopes _ ⟨?_, ?_⟩,
    hstable d _ rfl⟩
  · decide
  · exact Json.distinct_arr_iff.mpr (by simp)
  · exact (hplans _ (.compiled hr (by decide) rfl)).2
  · exact Json.distinct_null
  · exact List.forall_mem_singleton.mpr Json.distinct_null

end ArchivalQuery
