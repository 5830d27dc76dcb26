import ArchivalQuery.Filter.Expression
import ArchivalQuery.Proofs.Filter.Meaning
import ArchivalQuery.Proofs.Node.Filters
import ArchivalQuery.Proofs.Node.Writable

/-! # Compilation preserves meaning

A tree and its filter document admit the same documents, whatever the atomic tests answer.  This
rests on what the reader guarantees: operands that are no objects, names that do not look like
operators, and no list without items.
-/
namespace ArchivalQuery
open ArchivalQuery.Filter (Test Interpretation)
open Json (single)

def Comparison.test : Comparison → Test
  | eq => .eq
  | ne => .ne
  | gt => .gt
  | gte => .gte
  | lt => .lt
  | lte => .lte
  | size => .size

def Containment.test : Containment → Test
  | within => .within
  | notWithin => .notWithin

def TextMatch.test : TextMatch → Test
  | term => .eq
  | wildcard => .regex ""
  | regex => .regex ""

namespace Node
variable {Document : Type} (I : Interpretation Document) (a : Ancestry) (d : Document)

mutual
/-- Whether a document is one that a tree asks for.  Full-text searches have no meaning here. -/
def Holds : Node → Prop
  | comparison op field v => I.passes d (Field.stored a field) op.test v
  | existence .present field => I.passes d (Field.stored a field) .present (.bool true)
  | existence .missing field => I.passes d (Field.stored a field) .present (.bool false)
  | existence .isNull field => I.passes d (Field.stored a field) .type (.ofNat 10)
  | containment op field vs => I.passes d (Field.stored a field) op.test (.arr vs)
  | range field b => ∀ p ∈ b.toList, I.passes d (Field.stored a field) p.1.test p.2
  | textMatch op pairs => ∀ p ∈ pairs, I.passes d (Field.stored a p.field) op.test p.value
  | boolean .and ns => AllHold ns
  | boolean .or ns => SomeHold ns
  | boolean .not ns => ¬AllHold ns
  | fullText _ _ _ => False
  | path ids => ∃ id ∈ ids, I.passes d a.id .eq (.str id)
def AllHold : List Node → Prop
  | [] => True
  | n :: ns => Holds n ∧ AllHold ns
def SomeHold : List Node → Prop
  | [] => False
  | n :: ns => Holds n ∨ SomeHold ns
end

variable {I a d}

theorem allHold_iff {ns : List Node} : AllHold I a d ns ↔ ∀ n ∈ ns, Holds I a d n := by
  induction ns with
  | nil => simp [AllHold]
  | cons n ns ih => rw [AllHold, ih, List.forall_mem_cons]

theorem someHold_iff {ns : List Node} : SomeHold I a d ns ↔ ∃ n ∈ ns, Holds I a d n := by
  induction ns with
  | nil => simp [SomeHold]
  | cons n ns ih => simp [SomeHold, ih]

section Leaves
variable {field : String} (hfield : I.IsField (Field.stored a field))
include hfield

theorem comparisonFilter_holds_iff {op : Comparison} {v : Json} (hv : op.Takes v) :
    Filter.Holds I d (comparisonFilter (Field.stored a field) op v) ↔
      Holds I a d (.comparison op field v) := by
  rw [Holds]
  cases op with
  | eq => exact Filter.holds_eq hfield hv.isScalar
  | _ => exact Filter.holds_test hfield rfl

theorem existenceFilter_holds_iff {op : Existence} :
    Filter.Holds I d (existenceFilter (Field.stored a field) op) ↔
      Holds I a d (.existence op field) := by
  cases op <;> rw [Holds] <;> exact Filter.holds_test hfield rfl

theorem rangeFilter_holds_iff {b : Bounds} :
    Filter.Holds I d (rangeFilter (Field.stored a field) b) ↔ Holds I a d (.range field b) := by
  rw [rangeFilter, Filter.holds_tests hfield, List.forall_mem_map, Holds]
  refine forall_congr' fun p => imp_congr_right fun _ => ?_
  rcases p with ⟨op, v⟩
  cases op <;>
    simp [Filter.TestHolds, Test.ofOperator?, Comparison.test, Comparison.operator, Operator.token]

theorem patternFilter_holds_iff {op : TextMatch} (hop : op ≠ .term) {text f : Json}
    (hf : textFilter a op [⟨field, text⟩] = .ok f) :
    Filter.Holds I d f ↔ Holds I a d (.textMatch op [⟨field, text⟩]) := by
  rw [textFilter_pattern hop, Except.ok.injEq] at hf
  subst hf
  rw [Holds, List.forall_mem_singleton]
  cases op with
  | term => exact absurd rfl hop
  | wildcard | regex => exact Filter.holds_regex hfield

end Leaves

/-- The pairs of a term are tested for equality, one or many. -/
theorem termFilter_holds_iff {pairs : List FieldValue}
    (hpairs : ∀ p ∈ pairs, I.IsField (Field.stored a p.field) ∧ p.value.isScalar)
    {f : Json} (hf : textFilter a .term pairs = .ok f) :
    Filter.Holds I d f ↔ Holds I a d (.textMatch .term pairs) := by
  have each : (∀ g ∈ pairs.map fun p => single (Field.stored a p.field) p.value,
      Filter.Holds I d g) ↔ Holds I a d (.textMatch .term pairs) := by
    rw [List.forall_mem_map, Holds]
    refine forall_congr' fun p => forall_congr' fun hp => ?_
    exact Filter.holds_eq (hpairs p hp).1 (hpairs p hp).2
  rw [← each]
  rcases textFilter_term hf with hg | rfl
  · rw [hg, List.forall_mem_singleton]
  · rw [Filter.holds_and]

/-- A connective over at least one filter; one negated filter is not joined with others before. -/
theorem connect_holds_iff {op : Connective} {fs : List Json} (hfs : fs ≠ []) :
    Filter.Holds I d (connect op fs) ↔
      match op with
      | .and => ∀ f ∈ fs, Filter.Holds I d f
      | .or => ∃ f ∈ fs, Filter.Holds I d f
      | .not => ¬∀ f ∈ fs, Filter.Holds I d f := by
  match op, fs with
  | .and, fs => exact Filter.holds_and
  | .or, fs => exact Filter.holds_or
  | .not, [f] =>
    rw [connect, Filter.holds_nor]
    simp
  | .not, f :: g :: fs =>
    rw [connect, Filter.holds_nor, not_iff_not]
    · simp only [List.mem_singleton, exists_eq_left, Filter.holds_and]
    · exact nofun

theorem filters_eq_ok_iff {ns : List Node} {fs : List Json} :
    filters a ns = .ok fs ↔ List.Forall₂ (fun n f => n.filter a = .ok f) ns fs := by
  rw [filters_eq_mapM, Checked.mapM_eq_ok_iff]

/-- Lists of trees and of their filters hold as a whole and in part alike. -/
theorem forall₂_holds {ns : List Node} {fs : List Json}
    (h : ∀ n ∈ ns, ∀ f, n.filter a = .ok f → (Filter.Holds I d f ↔ Holds I a d n))
    (hfs : List.Forall₂ (fun n f => n.filter a = .ok f) ns fs) :
    ((∀ f ∈ fs, Filter.Holds I d f) ↔ AllHold I a d ns) ∧
      ((∃ f ∈ fs, Filter.Holds I d f) ↔ SomeHold I a d ns) := by
  induction hfs with
  | nil => simp [AllHold, SomeHold]
  | cons hf _ ih =>
    rw [List.forall_mem_cons] at h
    rcases ih h.2 with ⟨hall, hsome⟩
    have hhead := h.1 _ hf
    constructor
    · rw [List.forall_mem_cons, AllHold, hhead, hall]
    · simp only [List.mem_cons, exists_eq_or_imp]
      rw [SomeHold, hhead, hsome]

/-- The filter of a writable tree admits the documents that the tree asks for. -/
theorem holds_filter_iff (ha : a.Undollared) {n : Node} (hn : n.Writable) {f : Json}
    (hf : n.filter a = .ok f) : Filter.Holds I d f ↔ Holds I a d n := by
  have isField {name : String} (h : Field.Admitted .query name) : I.IsField (Field.stored a name) :=
    I.isField (Field.head?_stored_ne ha h)
  induction hn generalizing f with
  | comparison hfield hv =>
    obtain rfl := Except.ok.inj hf
    exact comparisonFilter_holds_iff (isField hfield) hv
  | existence hfield =>
    obtain rfl := Except.ok.inj hf
    exact existenceFilter_holds_iff (isField hfield)
  | @containment op field vs hfield =>
    obtain rfl := Except.ok.inj hf
    rw [Holds]
    cases op <;> exact Filter.holds_test (isField hfield) rfl
  | range hfield =>
    obtain rfl := Except.ok.inj hf
    exact rangeFilter_holds_iff (isField hfield)
  | pattern hop hfield =>
    exact patternFilter_holds_iff (isField hfield) hop hf
  | term _ hpairs =>
    exact termFilter_holds_iff (fun p hp => (hpairs p hp).imp_left isField) hf
  | @boolean op ns _ _ ih =>
    rw [filter] at hf
    simp only [Checked.malformed_bind, Checked.bind_eq_ok, Checked.guard_eq_ok,
      Checked.pure_eq_ok, filters_eq_ok_iff] at hf
    rcases hf with ⟨fs, hfs, hne, rfl⟩
    rcases forall₂_holds (I := I) (d := d) (fun n hn f => ih n hn) hfs with ⟨hall, hsome⟩
    rw [connect_holds_iff (by simpa using hne)]
    cases op with
    | and => rwa [Holds]
    | or => rwa [Holds]
    | not => rwa [Holds, not_iff_not]
  | fullText => cases hf
  | @path ids =>
    rw [filter] at hf
    split at hf
    · obtain rfl := Except.ok.inj hf
      rw [Holds]
      exact Filter.holds_memberOf? (I.isField (ha .id)) ‹_›
    · exact absurd hf Checked.malformed_ne_ok

/-- Whatever tree is read from an expression or a step, its filter admits exactly the documents that
the tree asks for. -/
theorem holds_filter_iff_of_read (ha : a.Undollared) {n : Node}
    (hn : (∃ v, Expression.read v = .ok n) ∨ ∃ index v s, Step.read index v = .ok s ∧ s.node = n)
    {f : Json} (hf : n.filter a = .ok f) : Filter.Holds I d f ↔ n.Holds I a d := by
  rcases hn with ⟨v, hv⟩ | ⟨index, v, s, hs, rfl⟩
  · exact holds_filter_iff ha (Expression.read_writable hv) hf
  · exact holds_filter_iff ha (Step.read_writable hs) hf

theorem holds_filter_iff_of_read_negation :
    let n : Node := .boolean .not [.comparison .eq "Title" (.str "x"), .path ["a", "b"]]
    let f := single "$nor" (.arr [single "$and" (.arr [single "Title" (.str "x"),
      single "_id" (single "$in" (.ofStrings ["a", "b"]))])])
    let d := [("_id", Json.str "a"), ("Title", .str "y")]
    Ancestry.Undollared {} ∧
      Expression.read (single "$not" (.arr [single "$eq" (single "Title" (.str "x")),
        single "$path" (.ofStrings ["a", "b"])])) = .ok n ∧
      n.filter {} = .ok f ∧
      (Filter.Holds Interpretation.literal d f ↔ n.Holds Interpretation.literal {} d) := by
  intro n f d
  have ha : Ancestry.Undollared {} := by
    intro role
    cases role <;> decide
  have hread : Expression.read (single "$not" (.arr [single "$eq" (single "Title" (.str "x")),
      single "$path" (.ofStrings ["a", "b"])])) = .ok n := rfl
  exact ⟨ha, hread, rfl, holds_filter_iff_of_read ha (.inl ⟨_, hread⟩) rfl⟩

end Node
end ArchivalQuery
