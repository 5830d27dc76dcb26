import ArchivalQuery.Proofs.Filter.Meaning
import ArchivalQuery.Proofs.Json.Integers
import ArchivalQuery.Proofs.Settings.Ancestry
import Mathlib.Logic.Relation

/-! # Graphs of units

A graph is any relation from parents to children over identifiers, with cycles or without.  A stored
unit holds its identifier, its parents, its ancestors and the range of its depths under the names of
the ancestry.  On every graph, valid names leave room for units of any place.
-/
namespace ArchivalQuery
open ArchivalQuery.Filter (Interpretation Test)
open Relation (TransGen)

/-- The relation between parents and their children. -/
abbrev Graph := String → String → Prop

/-- A walk of `k` edges, each from a parent to one of its children. -/
inductive Graph.Reaches (g : Graph) : Nat → String → String → Prop
  | here (x : String) : Reaches g 0 x x
  | step {k : Nat} {p q x : String} (hq : Reaches g k p q) (hx : g q x) : Reaches g (k + 1) p x

theorem Graph.reaches_zero_iff {g : Graph} {p x : String} : g.Reaches 0 p x ↔ p = x := by
  constructor
  · intro h
    cases h
    rfl
  · rintro rfl
    exact .here p

theorem Graph.reaches_succ_iff {g : Graph} {k : Nat} {p x : String} :
    g.Reaches (k + 1) p x ↔ ∃ q, g.Reaches k p q ∧ g q x := by
  constructor
  · rintro (_ | ⟨hq, hx⟩)
    exact ⟨_, hq, hx⟩
  · intro h
    rcases h with ⟨q, hq, hx⟩
    exact .step hq hx

/-- A walk upwards that is not empty starts with a parent. -/
theorem Graph.exists_parent_of_reaches {g : Graph} {k : Nat} {p x : String} (hk : 1 ≤ k)
    (h : g.Reaches k p x) : ∃ q, g q x := by
  cases h with
  | here => omega
  | step _ hx => exact ⟨_, hx⟩

/-- Whether a document is the unit of an identifier in a graph, with the range of its depths. -/
structure Filter.Interpretation.IsUnit {Document : Type} (I : Interpretation Document) (a : Ancestry)
    (g : Graph) (d : Document) (x : String) (least greatest : Nat) : Prop where
  isField : ∀ r, I.IsField (a.name r)
  id : ∀ i, I.passes d a.id .eq (.str i) ↔ i = x
  parents : ∀ i, I.passes d a.parents .eq (.str i) ↔ g i x
  ancestors : ∀ i, I.passes d a.ancestors .eq (.str i) ↔ TransGen g i x
  minDepth : ∀ n, I.passes d a.minDepth .lte (.ofUInt32 n) ↔ least ≤ n.toNat
  maxDepth : ∀ n, I.passes d a.maxDepth .gte (.ofUInt32 n) ↔ n.toNat ≤ greatest

namespace Graph

structure Place where
  id : String
  least : Nat
  greatest : Nat

/-- Whether the unit of a place has a value in a field, as far as the field tells of its place. -/
def Has (a : Ancestry) (g : Graph) (d : Place) (field : String) (v : Json) : Prop :=
  (field = a.id → v = .str d.id) ∧ (field = a.parents → ∃ i, v = .str i ∧ g i d.id) ∧
    (field = a.ancestors → ∃ i, v = .str i ∧ TransGen g i d.id)

/-- One unit for each place.  Units pass every test that is not about their place. -/
def interpretation (a : Ancestry) (g : Graph) : Interpretation Place where
  IsField _ := True
  passes d field t v :=
    match t with
    | .eq => Has a g d field v
    | .within => ∃ vs, v = .arr vs ∧ ∃ w ∈ vs, Has a g d field w
    | .lte => field = a.minDepth → ∃ n : Nat, v.int? = some (n : Int) ∧ d.least ≤ n
    | .gte => field = a.maxDepth → ∃ n : Nat, v.int? = some (n : Int) ∧ n ≤ d.greatest
    | _ => True
  isField _ := trivial
  within_iff := by simp

theorem exists_int?_ofUInt32_iff {n : UInt32} {P : Nat → Prop} :
    (∃ k : Nat, (Json.ofUInt32 n).int? = some (k : Int) ∧ P k) ↔ P n.toNat := by
  rw [Json.int?_ofUInt32]
  constructor
  · rintro ⟨k, hk, hP⟩
    obtain rfl := Int.ofNat.inj (Option.some.inj hk)
    exact hP
  · exact fun hP => ⟨_, rfl, hP⟩

/-- Every place of a graph is that of a unit, since valid names keep the fields of a unit apart. -/
theorem isUnit_interpretation {a : Ancestry} (ha : a.check = .ok ()) (g : Graph) (d : Place) :
    (interpretation a g).IsUnit a g d d.id d.least d.greatest := by
  have hne (r s : Role) (h : r ≠ s) : a.name r ≠ a.name s := (Ancestry.name_injective ha).ne h
  have hip : a.id ≠ a.parents := hne .id .parents nofun
  have hia : a.id ≠ a.ancestors := hne .id .ancestors nofun
  have hpa : a.parents ≠ a.ancestors := hne .parents .ancestors nofun
  constructor
  · exact fun _ => trivial
  · intro i
    simp [interpretation, Has, hip, hia]
  · intro i
    simp [interpretation, Has, hip.symm, hpa]
  · intro i
    simp [interpretation, Has, hia.symm, hpa.symm]
  · intro n
    exact (forall_prop_of_true rfl).trans exists_int?_ofUInt32_iff
  · intro n
    exact (forall_prop_of_true rfl).trans exists_int?_ofUInt32_iff

end Graph
end ArchivalQuery
