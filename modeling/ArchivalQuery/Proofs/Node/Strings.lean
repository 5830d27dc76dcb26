import ArchivalQuery.Proofs.Json.Strings
import ArchivalQuery.Proofs.Node.Filters
import ArchivalQuery.Proofs.Node.Subtrees

/-! # Trees with other strings

What the strings in a tree are has no say in the form of its filter: with other strings in the tree,
the filter has the other strings in their places.  Fields are not among the strings of a tree.
-/
namespace ArchivalQuery
open Json (single)
variable (g : String → String)

def Bounds.mapStrings (b : Bounds) : Bounds where
  gt := b.gt.map (Json.mapStrings g)
  gte := b.gte.map (Json.mapStrings g)
  lt := b.lt.map (Json.mapStrings g)
  lte := b.lte.map (Json.mapStrings g)

theorem Bounds.toList_mapStrings (b : Bounds) :
    (b.mapStrings g).toList = b.toList.map fun p => (p.1, p.2.mapStrings g) := by
  rcases b with ⟨gt, gte, lt, lte⟩
  cases gt <;> cases gte <;> cases lt <;> cases lte <;> rfl

namespace Node

mutual
/-- A tree with each string of its operands replaced, and each of its identifiers. -/
def mapStrings : Node → Node
  | comparison op field v => comparison op field (v.mapStrings g)
  | existence op field => existence op field
  | containment op field vs => containment op field (vs.map (Json.mapStrings g))
  | range field b => range field (b.mapStrings g)
  | textMatch op pairs =>
    textMatch op (pairs.map fun p => { p with value := p.value.mapStrings g })
  | boolean op cs => boolean op (mapAll cs)
  | fullText op fields text => fullText op fields (g text)
  | path ids => path (ids.map g)
def mapAll : List Node → List Node
  | [] => []
  | n :: ns => mapStrings n :: mapAll ns
end

theorem mapAll_eq_map (ns : List Node) : mapAll g ns = ns.map (mapStrings g) := by
  induction ns with
  | nil => rfl
  | cons n ns ih => rw [mapAll, ih, List.map_cons]

end Node

theorem Filter.memberOf?_map (field : String) (ids : List String) :
    memberOf? field (ids.map g) = (memberOf? field ids).map (Json.mapStrings g) := by
  match ids with
  | [] => rfl
  | [id] => simp [memberOf?]
  | id :: id' :: ids => simp [memberOf?]

namespace Node
variable {g} (hg : g "" = "") {a : Ancestry}

theorem comparisonFilter_mapStrings (field : String) (op : Comparison) (v : Json) :
    comparisonFilter field op (v.mapStrings g) = (comparisonFilter field op v).mapStrings g := by
  cases op <;> simp [comparisonFilter]

theorem existenceFilter_mapStrings (field : String) (op : Existence) :
    (existenceFilter field op).mapStrings g = existenceFilter field op := by
  cases op <;> simp [existenceFilter]

theorem rangeFilter_mapStrings (field : String) (b : Bounds) :
    rangeFilter field (b.mapStrings g) = (rangeFilter field b).mapStrings g := by
  simp [rangeFilter, Bounds.toList_mapStrings, Function.comp_def]

include hg in
/-- The options of a pattern are the empty text, which has to stay. -/
theorem textFilter_mapStrings (op : TextMatch) (pairs : List FieldValue) :
    textFilter a op (pairs.map fun p => { p with value := p.value.mapStrings g }) =
      Json.mapStrings g <$> textFilter a op pairs := by
  cases op with
  | term =>
    match pairs with
    | [] => rfl
    | [p] => simp [textFilter]
    | p :: q :: ps => simp [textFilter, Function.comp_def]
  | wildcard | regex =>
    match pairs with
    | [] => rfl
    | [p] => simp [textFilter, hg]
    | p :: q :: ps => rfl

theorem connect_mapStrings (op : Connective) (fs : List Json) :
    connect op (fs.map (Json.mapStrings g)) = (connect op fs).mapStrings g := by
  match op, fs with
  | .and, fs => simp [connect]
  | .or, fs => simp [connect]
  | .not, [] => simp [connect]
  | .not, [f] => simp [connect]
  | .not, f :: f' :: fs => simp [connect]

include hg in
/-- The filter of a tree with other strings is its filter with the other strings. -/
theorem filter_mapStrings (n : Node) :
    (n.mapStrings g).filter a = Json.mapStrings g <$> n.filter a := by
  induction n using induction with
  | leaf n h =>
    cases n with
    | boolean op cs => exact absurd rfl (h op cs)
    | comparison op field v => exact congrArg Except.ok (comparisonFilter_mapStrings _ op v)
    | existence op field => exact congrArg Except.ok (existenceFilter_mapStrings _ op).symm
    | containment op field vs => exact congrArg Except.ok (by simp)
    | range field b => exact congrArg Except.ok (rangeFilter_mapStrings _ b)
    | textMatch op pairs => exact textFilter_mapStrings hg op pairs
    | fullText op fields text => rfl
    | path ids =>
      rw [mapStrings, filter, filter, Filter.memberOf?_map]
      cases Filter.memberOf? a.id ids <;> rfl
  | join op cs ih =>
    rw [mapStrings, mapAll_eq_map]
    by_cases hcs : cs = []
    · rw [hcs]
      rfl
    · have hmap : cs.map (mapStrings g) ≠ [] := by simpa using hcs
      rw [filter_boolean op hmap, filter_boolean op hcs, Checked.mapM_map ih]
      cases cs.mapM (filter a) with
      | error e => rfl
      | ok fs => exact congrArg Except.ok (connect_mapStrings op fs)

end Node
end ArchivalQuery
