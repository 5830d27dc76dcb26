import ArchivalQuery.Proofs.Node.Filters
import ArchivalQuery.Proofs.Node.Subtrees

/-! # Trees without a filter

A tree has a filter unless one of its subtrees is flawed, and it is refused for the first flaw in
the order of the document.  The flaws of a writable tree are its full-text searches.
-/
namespace ArchivalQuery

section Finds
variable {α β γ : Type}

theorem findSome?_congr {f g : α → Option β} {xs : List α} (h : ∀ x ∈ xs, f x = g x) :
    xs.findSome? f = xs.findSome? g := by
  rw [← List.head?_filterMap, List.filterMap_congr h, List.head?_filterMap]

theorem findSome?_flatMap {f : α → List β} {g : β → Option γ} {xs : List α} :
    (xs.flatMap f).findSome? g = xs.findSome? fun x => (f x).findSome? g := by
  simp only [← List.head?_filterMap (f := g), List.filterMap_flatMap, List.head?_flatMap]

end Finds

namespace Node

/-- Why a tree would have no filter even if all trees below it had one. -/
def flaw? : Node → Option QueryError
  | fullText op _ _ => some (.unsupported op.operator)
  | boolean op cs => if cs.isEmpty then some (.malformed (.noChild op.operator)) else none
  | textMatch .term pairs => if pairs.isEmpty then some (.malformed (.noField .term)) else none
  | textMatch op pairs =>
    if pairs.length = 1 then none else some (.malformed (.oneFieldOnly op.operator))
  | path ids => if ids.isEmpty then some (.malformed .noId) else none
  | _ => none

def fullText? : Node → Option FullText
  | fullText op _ _ => some op
  | _ => none

variable {a : Ancestry}

theorem error?_textFilter {op : TextMatch} {pairs : List FieldValue} :
    (textFilter a op pairs).error? = (textMatch op pairs).flaw? := by
  cases op with
  | term =>
    match pairs with
    | [] => rfl
    | [p] => rfl
    | p :: q :: ps => rfl
  | wildcard | regex =>
    match pairs with
    | [] => rfl
    | [p] => rfl
    | p :: q :: ps => simp [textFilter, flaw?, TextMatch.operator]

theorem error?_filter_path {ids : List String} :
    ((path ids).filter a).error? = (path ids).flaw? := by
  rw [filter]
  cases ids with
  | nil => rfl
  | cons id ids => cases ids <;> rfl

theorem error?_filter_leaf {n : Node} (h : ∀ op cs, n ≠ boolean op cs) :
    (n.filter a).error? = n.flaw? := by
  cases n with
  | boolean op cs => exact absurd rfl (h op cs)
  | textMatch op pairs => exact error?_textFilter
  | path ids => exact error?_filter_path
  | _ => rfl

theorem error?_filter_boolean (op : Connective) (cs : List Node) :
    ((boolean op cs).filter a).error? =
      (boolean op cs).flaw?.or (cs.findSome? fun c => (c.filter a).error?) := by
  cases cs with
  | nil => rfl
  | cons c cs =>
    have hflaw : (boolean op (c :: cs)).flaw? = none := rfl
    rw [filter_boolean op (List.cons_ne_nil c cs), Checked.error?_map, Checked.error?_mapM, hflaw,
      Option.none_or]

/-- Whatever the tree, it is refused for the first flaw among its subtrees. -/
theorem error?_filter (n : Node) : (n.filter a).error? = n.subtrees.findSome? flaw? := by
  induction n using induction with
  | leaf n h => rw [error?_filter_leaf h, subtrees_leaf h, List.findSome?_singleton]
  | join op cs ih =>
    rw [error?_filter_boolean, findSome?_congr ih, ← findSome?_flatMap, subtrees_boolean,
      List.findSome?_cons]
    cases (boolean op cs).flaw? with
    | none => rfl
    | some e => rfl

/-- A writable tree is flawed only as a full-text search. -/
theorem Writable.flaw? {n : Node} (hn : n.Writable) :
    n.flaw? = n.fullText?.map fun op => .unsupported op.operator := by
  cases hn with
  | term hne => simp [Node.flaw?, fullText?, hne]
  | boolean hne => simp [Node.flaw?, fullText?, hne]
  | path hne => simp [Node.flaw?, fullText?, hne]
  | @pattern op field text hop => cases op <;> simp [Node.flaw?, fullText?] at hop ⊢
  | _ => rfl

end Node
end ArchivalQuery
