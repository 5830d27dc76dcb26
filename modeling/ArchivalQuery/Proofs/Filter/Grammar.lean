import ArchivalQuery.Filter.Document
import ArchivalQuery.Proofs.Json.Integers
import Mathlib.Data.List.Nodup

/-! # The grammar of filter documents

The documents that the store is given: connectives over documents, and fields with a value or with
tests.  Nothing else is ever taken for an operator of the store, such as one that runs code.
-/
namespace ArchivalQuery.Filter
open Json (single)

def testOperators : List String :=
  ["$ne", "$gt", "$gte", "$lt", "$lte", "$size", "$exists", "$type", "$in", "$nin", "$regex",
    "$options"]

/-- What a test is given: a scalar, or an array of scalars. -/
inductive Operand : Json → Prop
  | scalar {v : Json} (hv : v.isScalar) : Operand v
  | list {vs : List Json} (hvs : ∀ v ∈ vs, v.isScalar) : Operand (.arr vs)

/-- Filter documents over some field keys. -/
inductive Document (Key : String → Prop) : Json → Prop
  | and {fs : List Json} (hne : fs ≠ []) (hfs : ∀ f ∈ fs, Document Key f) :
      Document Key (single "$and" (.arr fs))
  | or {fs : List Json} (hne : fs ≠ []) (hfs : ∀ f ∈ fs, Document Key f) :
      Document Key (single "$or" (.arr fs))
  | nor {f : Json} (hf : Document Key f) : Document Key (single "$nor" (.arr [f]))
  | value {key : String} {v : Json} (hkey : Key key) (hv : v.isScalar) :
      Document Key (single key v)
  | tests {key : String} {ts : List (String × Json)} (hkey : Key key) (hne : ts ≠ [])
      (hkeys : (ts.map Prod.fst).Nodup) (hts : ∀ t ∈ ts, t.1 ∈ testOperators ∧ Operand t.2) :
      Document Key (single key (.obj ts))

variable {Key : String → Prop}

theorem Document.test {key op : String} {v : Json} (hkey : Key key) (hop : op ∈ testOperators)
    (hv : Operand v) : Document Key (single key (single op v)) :=
  .tests hkey (List.cons_ne_nil _ _) (List.nodup_singleton op)
    (List.forall_mem_singleton.mpr ⟨hop, hv⟩)

theorem operand_ofStrings (ss : List String) : Operand (.ofStrings ss) := by
  refine .list fun v hv => ?_
  rcases List.mem_map.mp hv with ⟨s, -, rfl⟩
  rfl

theorem document_of_memberOf? {key : String} (hkey : Key key) {ids : List String} {f : Json}
    (h : memberOf? key ids = some f) : Document Key f := by
  unfold memberOf? at h
  split at h
  · cases h
  · obtain rfl := Option.some.inj h
    exact .value hkey rfl
  · obtain rfl := Option.some.inj h
    exact .test hkey (by decide) (operand_ofStrings _)

theorem document_within {restriction : Option Json}
    (hrestriction : ∀ f ∈ restriction, Document Key f) {w : DepthWindow} (hmin : Key w.minField)
    (hmax : Key w.maxField) : Document Key (within restriction w) := by
  have hdepth : Operand (.ofUInt32 w.depth) := .scalar (Json.isScalar_ofUInt32 w.depth)
  refine .and (by simp) ?_
  simp only [List.forall_mem_append, Option.mem_toList, List.forall_mem_cons]
  exact ⟨hrestriction, .test hmin (by decide) hdepth, .test hmax (by decide) hdepth, by simp⟩

theorem document_restrict {query : Json} (hquery : Document Key query) {restriction : Option Json}
    (hrestriction : ∀ f ∈ restriction, Document Key f) :
    Document Key (restrict query restriction) := by
  cases restriction with
  | none => exact hquery
  | some f =>
    refine .and (List.cons_ne_nil _ _) ?_
    exact List.forall_mem_cons.mpr ⟨hquery, List.forall_mem_singleton.mpr (hrestriction f rfl)⟩

end ArchivalQuery.Filter
