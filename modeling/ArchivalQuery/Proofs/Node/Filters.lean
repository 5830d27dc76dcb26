import ArchivalQuery.Filter.Expression
import ArchivalQuery.Proofs.Checked

/-! # The filter of a tree by parts

What the filters of terms, patterns and connectives are, given those of their parts.
-/
namespace ArchivalQuery.Node
open Json (single)
variable {a : Ancestry}

/-- The pairs of a term have a document each: one stands for itself, several are joined. -/
theorem textFilter_term {pairs : List FieldValue} {f : Json}
    (h : textFilter a .term pairs = .ok f) :
    (pairs.map fun p => single (Field.stored a p.field) p.value) = [f] ∨
      f = single "$and" (.arr (pairs.map fun p => single (Field.stored a p.field) p.value)) := by
  match pairs with
  | [] => cases h
  | [p] => exact .inl (by rw [← Except.ok.inj h]; rfl)
  | p :: q :: ps => exact .inr (Except.ok.inj h).symm

/-- A pattern has the same document whatever its kind. -/
theorem textFilter_pattern {op : TextMatch} (hop : op ≠ .term) (field : String) (text : Json) :
    textFilter a op [⟨field, text⟩] =
      .ok (single (Field.stored a field) (.obj [("$regex", text), ("$options", .str "")])) := by
  cases op with
  | term => exact absurd rfl hop
  | wildcard | regex => rfl

theorem filters_eq_mapM (ns : List Node) : filters a ns = ns.mapM (filter a) := by
  induction ns with
  | nil => rfl
  | cons n ns ih => rw [filters, List.mapM_cons, ih]

/-- A connective over some trees joins their filters. -/
theorem filter_boolean (op : Connective) {cs : List Node} (hcs : cs ≠ []) :
    (boolean op cs).filter a = connect op <$> cs.mapM (filter a) := by
  rw [filter, filters_eq_mapM]
  cases hfs : cs.mapM (filter a) with
  | error e => rfl
  | ok fs =>
    have hlength := (Checked.mapM_eq_ok_iff.mp hfs).length_eq
    cases fs with
    | nil => exact absurd (List.eq_nil_of_length_eq_zero hlength) hcs
    | cons f fs => rfl

end ArchivalQuery.Node
