import ArchivalQuery.Filter.Document
import Mathlib.Logic.Basic

/-! # The meaning of filter documents

Which documents match a filter document, once it is known which atomic tests each document passes.
Nothing is assumed of the tests but that membership in a list is equality with one of its values.
-/
namespace ArchivalQuery.Filter
open Json (single)

/-- The atomic tests of one stored field against a value. -/
inductive Test
  | eq | ne | gt | gte | lt | lte
  | size
  | present
  | type
  | within | notWithin
  /-- The match of a pattern, with its options. -/
  | regex (options : String)
deriving DecidableEq, Repr

/-- The test of an operator; a pattern takes the options that stand beside it. -/
def Test.ofOperator? (options : String) : String → Option Test
  | "$eq" => some .eq
  | "$ne" => some .ne
  | "$gt" => some .gt
  | "$gte" => some .gte
  | "$lt" => some .lt
  | "$lte" => some .lte
  | "$size" => some .size
  | "$exists" => some .present
  | "$type" => some .type
  | "$in" => some .within
  | "$nin" => some .notWithin
  | "$regex" => some (.regex options)
  | _ => none

/-- A truth assignment: which names can be fields of documents, and which atomic tests each document
passes. -/
structure Interpretation (Document : Type) where
  IsField : String → Prop
  passes : Document → String → Test → Json → Prop
  isField : ∀ {key : String}, key.toList.head? ≠ some '$' → IsField key
  within_iff : ∀ d field vs, passes d field .within (.arr vs) ↔ ∃ v ∈ vs, passes d field .eq v

/-- Documents as fields with their values, where a test is passed by the value itself and membership
by a listed value. -/
def Interpretation.literal : Interpretation (List (String × Json)) where
  IsField key := key.toList.head? ≠ some '$'
  passes d field t v :=
    if t = .within then ∃ vs, v = .arr vs ∧ ∃ w ∈ vs, (field, w) ∈ d else (field, v) ∈ d
  isField := id
  within_iff := by simp

variable {Document : Type} (I : Interpretation Document) (d : Document)

/-- The options beside a pattern; none are the same as empty ones. -/
def optionsOf (tests : List (String × Json)) : String :=
  ((tests.lookup "$options").bind Json.str?).getD ""

/-- Whether a document passes one test among others of the same field. -/
def TestHolds (field : String) (tests : List (String × Json)) (m : String × Json) : Prop :=
  m.1 = "$options" ∨ ∃ t, Test.ofOperator? (optionsOf tests) m.1 = some t ∧ I.passes d field t m.2

/-- Whether a document passes what a field is given: tests, or a value to be equal to. -/
def FieldHolds (field : String) : Json → Prop
  | .obj tests => ∀ m ∈ tests, TestHolds I d field tests m
  | v => I.passes d field .eq v

mutual
/-- Whether a document matches a filter document: all of its members. -/
def Holds : Json → Prop
  | .obj ms => MembersHold ms
  | _ => False
def MembersHold : List (String × Json) → Prop
  | [] => True
  | (key, v) :: ms => MemberHolds key v ∧ MembersHold ms
/-- Whether a document matches a member: a connective over filters, or a field.  A key that is
neither is matched by nothing. -/
def MemberHolds (key : String) : Json → Prop
  | .arr fs =>
    if key = "$and" then AllHold fs
    else if key = "$or" then SomeHold fs
    else if key = "$nor" then ¬SomeHold fs
    else I.IsField key ∧ FieldHolds I d key (.arr fs)
  | v => I.IsField key ∧ FieldHolds I d key v
def AllHold : List Json → Prop
  | [] => True
  | f :: fs => Holds f ∧ AllHold fs
def SomeHold : List Json → Prop
  | [] => False
  | f :: fs => Holds f ∨ SomeHold fs
end

variable {I d}

theorem allHold_iff {fs : List Json} : AllHold I d fs ↔ ∀ f ∈ fs, Holds I d f := by
  induction fs with
  | nil => simp [AllHold]
  | cons f fs ih => rw [AllHold, ih, List.forall_mem_cons]

theorem someHold_iff {fs : List Json} : SomeHold I d fs ↔ ∃ f ∈ fs, Holds I d f := by
  induction fs with
  | nil => simp [SomeHold]
  | cons f fs ih => simp [SomeHold, ih]

theorem holds_single {key : String} {v : Json} :
    Holds I d (single key v) ↔ MemberHolds I d key v := by
  simp [single, Holds, MembersHold]

theorem holds_and {fs : List Json} :
    Holds I d (single "$and" (.arr fs)) ↔ ∀ f ∈ fs, Holds I d f := by
  rw [holds_single, MemberHolds, if_pos rfl, allHold_iff]

theorem holds_or {fs : List Json} :
    Holds I d (single "$or" (.arr fs)) ↔ ∃ f ∈ fs, Holds I d f := by
  rw [holds_single, MemberHolds, if_neg (by decide), if_pos rfl, someHold_iff]

theorem holds_nor {fs : List Json} :
    Holds I d (single "$nor" (.arr fs)) ↔ ¬∃ f ∈ fs, Holds I d f := by
  rw [holds_single, MemberHolds, if_neg (by decide), if_neg (by decide), if_pos rfl, someHold_iff]

section Fields
variable {key : String} (hkey : I.IsField key)
include hkey

/-- A value that is no array is never taken for the operand of a connective. -/
theorem memberHolds_field {v : Json} (hv : v.arr? = none) :
    MemberHolds I d key v ↔ FieldHolds I d key v := by
  cases v <;> simp_all [MemberHolds, Json.arr?]

theorem holds_eq {v : Json} (hv : v.isScalar) :
    Holds I d (single key v) ↔ I.passes d key .eq v := by
  have harr : v.arr? = none := by cases v <;> simp_all [Json.isScalar, Json.arr?]
  rw [holds_single, memberHolds_field hkey harr]
  cases v <;> simp_all [FieldHolds, Json.isScalar]

theorem holds_tests {tests : List (String × Json)} :
    Holds I d (single key (.obj tests)) ↔ ∀ m ∈ tests, TestHolds I d key tests m := by
  rw [holds_single, memberHolds_field hkey rfl, FieldHolds]

theorem holds_test {op : String} {t : Test} (ht : Test.ofOperator? "" op = some t) {v : Json} :
    Holds I d (single key (single op v)) ↔ I.passes d key t v := by
  have hop : op ≠ "$options" := by
    rintro rfl
    simp [Test.ofOperator?] at ht
  have hoptions : optionsOf [(op, v)] = "" := by
    simp [optionsOf, List.lookup_cons, beq_false_of_ne hop.symm]
  change Holds I d (single key (.obj [(op, v)])) ↔ _
  rw [holds_tests hkey]
  simp [TestHolds, hop, hoptions, ht]

theorem holds_regex {pattern : Json} {options : String} :
    Holds I d (single key (.obj [("$regex", pattern), ("$options", .str options)])) ↔
      I.passes d key (.regex options) pattern := by
  have hoptions : optionsOf [("$regex", pattern), ("$options", .str options)] = options := rfl
  rw [holds_tests hkey]
  simp [TestHolds, hoptions, Test.ofOperator?]

theorem holds_memberOf? {ids : List String} {f : Json} (hf : memberOf? key ids = some f) :
    Holds I d f ↔ ∃ id ∈ ids, I.passes d key .eq (.str id) := by
  unfold memberOf? at hf
  split at hf
  · cases hf
  · obtain rfl := Option.some.inj hf
    rw [holds_eq hkey rfl]
    simp
  · obtain rfl := Option.some.inj hf
    rw [holds_test hkey rfl, Json.ofStrings, I.within_iff]
    simp

end Fields

theorem memberOf?_eq_none_iff {field : String} {ids : List String} :
    memberOf? field ids = none ↔ ids = [] := by
  unfold memberOf?
  split <;> simp_all

theorem holds_within {f : Json} {w : DepthWindow} (hmin : I.IsField w.minField)
    (hmax : I.IsField w.maxField) :
    Holds I d (within (some f) w) ↔ Holds I d f ∧
      I.passes d w.minField .lte (.ofUInt32 w.depth) ∧
      I.passes d w.maxField .gte (.ofUInt32 w.depth) := by
  have hlte : Test.ofOperator? "" "$lte" = some .lte := rfl
  have hgte : Test.ofOperator? "" "$gte" = some .gte := rfl
  rw [within, holds_and]
  simp [holds_test hmin hlte, holds_test hmax hgte]

end ArchivalQuery.Filter
