import ArchivalQuery.Plan.Compile
import ArchivalQuery.Proofs.Node.Filters
import ArchivalQuery.Proofs.Node.Form

/-! # Documents of plans

Filters, projections and sort keys are documents that repeat no key, if the values in the tree they
are made from repeat none.
-/
namespace ArchivalQuery
open Json (single)

theorem Filter.distinct_of_memberOf? {key : String} {ids : List String} {f : Json}
    (h : memberOf? key ids = some f) : f.Distinct := by
  unfold memberOf? at h
  split at h
  · cases h
  · obtain rfl := Option.some.inj h
    exact Json.distinct_single_iff.mpr trivial
  · obtain rfl := Option.some.inj h
    exact Json.distinct_single_iff.mpr (Json.distinct_single_iff.mpr (Json.distinct_ofStrings _))

namespace Node
variable {a : Ancestry} {f : Json}

theorem distinct_comparisonFilter {key : String} {op : Comparison} {v : Json} (hv : v.Distinct) :
    (comparisonFilter key op v).Distinct := by
  cases op <;> simp [comparisonFilter, Json.distinct_single_iff, hv]

theorem distinct_existenceFilter {key : String} {op : Existence} :
    (existenceFilter key op).Distinct := by
  have htype : (Json.ofNat nullType).Distinct :=
    Json.distinct_of_isScalar (Json.isScalar_ofNat (by decide))
  cases op <;> simp [existenceFilter, Json.distinct_single_iff, htype]

theorem distinct_rangeFilter {key : String} {b : Bounds} (hb : b.Kept) :
    (rangeFilter key b).Distinct := by
  refine Json.distinct_single_iff.mpr (Json.distinct_obj_iff.mpr ⟨b.nodup_members, fun m hm => ?_⟩)
  rcases List.mem_map.mp hm with ⟨p, hp, rfl⟩
  exact (Bounds.kept_iff.mp hb p hp).1

theorem distinct_textFilter {op : TextMatch} {pairs : List FieldValue}
    (hpairs : ∀ p ∈ pairs, p.value.Distinct) (h : textFilter a op pairs = .ok f) : f.Distinct := by
  cases op with
  | term =>
    have hall : ∀ g ∈ pairs.map fun p => single (Field.stored a p.field) p.value, g.Distinct :=
      List.forall_mem_map.mpr fun p hp => Json.distinct_single_iff.mpr (hpairs p hp)
    rcases textFilter_term h with hf | rfl
    · exact hall f (hf ▸ List.mem_singleton_self f)
    · exact Json.distinct_single_iff.mpr (Json.distinct_arr_iff.mpr hall)
  | wildcard | regex =>
    simp only [textFilter] at h
    split at h
    · cases h
      simpa [Json.distinct_single_iff, Json.distinct_obj_iff] using hpairs
    · exact absurd h Checked.malformed_ne_ok

theorem distinct_connect {op : Connective} {fs : List Json} (hfs : ∀ f ∈ fs, f.Distinct) :
    (connect op fs).Distinct := by
  have hall (key : String) : (single key (.arr fs)).Distinct :=
    Json.distinct_single_iff.mpr (Json.distinct_arr_iff.mpr hfs)
  unfold connect
  split
  · exact hall "$and"
  · exact hall "$or"
  · exact hall "$nor"
  · refine Json.distinct_single_iff.mpr (Json.distinct_arr_iff.mpr ?_)
    exact List.forall_mem_singleton.mpr (hall "$and")

/-- The filter of a tree has no keys but those of the values in the tree and its own. -/
theorem Kept.distinct_filter {n : Node} (hn : n.Kept) (h : n.filter a = .ok f) : f.Distinct := by
  induction hn generalizing f with
  | comparison hv =>
    cases h
    exact distinct_comparisonFilter hv
  | existence =>
    cases h
    exact distinct_existenceFilter
  | containment hvs =>
    cases h
    exact Json.distinct_single_iff.mpr
      (Json.distinct_single_iff.mpr (Json.distinct_arr_iff.mpr hvs))
  | range hb =>
    cases h
    exact distinct_rangeFilter hb
  | textMatch hpairs => exact distinct_textFilter hpairs h
  | boolean _ ih =>
    simp only [filter, filters_eq_mapM, Checked.malformed_bind, Checked.bind_eq_ok,
      Checked.guard_eq_ok, Checked.pure_eq_ok] at h
    rcases h with ⟨fs, hfs, -, rfl⟩
    refine distinct_connect fun g hg => ?_
    rcases Checked.exists_of_mem_mapM hfs hg with ⟨c, hc, hcg⟩
    exact ih c hc hcg
  | fullText => cases h
  | path =>
    unfold filter at h
    split at h
    · rename_i hids
      obtain rfl := Except.ok.inj h
      exact Filter.distinct_of_memberOf? hids
    · exact absurd h Checked.malformed_ne_ok

end Node

theorem Projection.distinct_document (a : Ancestry) (p : Projection) :
    (p.document a).Distinct := by
  unfold document
  dsimp only
  split
  · exact Json.distinct_obj_iff.mpr ⟨List.nodup_nil, nofun⟩
  · refine Json.distinct_ofWrites fun w hw => ?_
    rcases List.mem_filterMap.mp hw with ⟨f, -, hf⟩
    rcases Option.map_eq_some_iff.mp hf with ⟨name, -, rfl⟩
    refine Json.distinct_of_isScalar (Json.isScalar_ofNat ?_)
    cases f.included <;> decide

theorem OrderBy.distinct_document (a : Ancestry) (keys : List OrderBy) :
    (document a keys).Distinct := by
  refine Json.distinct_ofWrites (List.forall_mem_map.mpr fun k _ => ?_)
  cases k.direction <;> exact Json.distinct_ofInt32 _

end ArchivalQuery
