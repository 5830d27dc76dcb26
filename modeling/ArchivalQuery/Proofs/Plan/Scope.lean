import ArchivalQuery.Proofs.Graph
import ArchivalQuery.Proofs.Plan.Compile

/-! # Scopes of depths

A step bound to its expanded working set finds exactly the units that its depth asks for.  Downwards
the set grows by one level less than the depth has hops, and its children are taken; upwards the set
itself is taken.
-/
namespace ArchivalQuery
open ArchivalQuery.Filter (Interpretation)
open Relation (TransGen)

/-- The identifiers of an expanded working set. -/
def Expansion.Covers (g : Graph) (ids : List String) : Expansion → String → Prop
  | none, x => x ∈ ids
  | descendants hops, x => ∃ w ∈ ids, ∃ k, k ≤ hops.toNat ∧ g.Reaches k w x
  | ancestors hops, x => ∃ w ∈ ids, ∃ k, 1 ≤ k ∧ k ≤ hops.toNat ∧ g.Reaches k x w

/-- The units that a depth asks for, seen from a working set: those some hops down, those some hops
up, or the descendants whose range of depths encloses the distance. -/
def Depth.Selects (g : Graph) (ids : List String) (x : String) (least greatest : Nat) :
    Depth → Prop
  | relative hops =>
    if 0 < hops.toInt then
      ∃ w ∈ ids, ∃ k : Nat, 1 ≤ k ∧ (k : Int) ≤ hops.toInt ∧ g.Reaches k w x
    else ∃ w ∈ ids, ∃ k : Nat, 1 ≤ k ∧ (k : Int) ≤ -hops.toInt ∧ g.Reaches k x w
  | exact distance =>
    (∃ w ∈ ids, TransGen g w x) ∧ (least : Int) ≤ distance.toInt ∧ distance.toInt ≤ greatest

namespace Depth
variable {hops : Int32} {g : Graph} {ids : List String} {x : String}

/-- Downwards the working set grows by one level less than the depth has hops. -/
theorem covers_of_pos (h : 0 < hops.toInt) :
    (relative hops).scope.expansion.Covers g ids x ↔
      ∃ w ∈ ids, ∃ k : Nat, (k : Int) + 1 ≤ hops.toInt ∧ g.Reaches k w x := by
  by_cases hone : hops.toInt = 1
  · obtain rfl : hops = 1 := Int32.toInt_inj.mp hone
    change x ∈ ids ↔ _
    constructor
    · exact fun hx => ⟨x, hx, 0, by simp [hone], .here x⟩
    · intro hn
      rcases hn with ⟨w, hw, k, hk, hx⟩
      obtain rfl : k = 0 := by omega
      rwa [← Graph.reaches_zero_iff.mp hx]
  · have hlt : 1 < hops.toInt := by omega
    have hmag := toNat_magnitude hops
    have hgrow : 1 < magnitude hops := UInt32.lt_iff_toNat_lt.mpr (by simp; omega)
    have hsub : (magnitude hops - 1).toNat = hops.toInt.natAbs - 1 := by
      rw [UInt32.toNat_sub_of_le _ _ (UInt32.le_of_lt hgrow), hmag]
      rfl
    rw [scope_of_one_lt hlt, Scope.expansion, if_pos hgrow, Expansion.Covers, hsub]
    refine exists_congr fun w => and_congr_right fun _ => exists_congr fun k =>
      and_congr_left fun _ => ?_
    omega

/-- Upwards the working set is replaced by what the depth asks for. -/
theorem covers_of_neg (h : hops.toInt < 0) :
    (relative hops).scope.expansion.Covers g ids x ↔
      ∃ w ∈ ids, ∃ k : Nat, 1 ≤ k ∧ (k : Int) ≤ -hops.toInt ∧ g.Reaches k x w := by
  rw [scope_of_neg h, Scope.expansion, Expansion.Covers, toNat_magnitude]
  refine exists_congr fun w => and_congr_right fun _ => exists_congr fun k =>
    and_congr_right fun _ => and_congr_left fun _ => ?_
  omega

theorem restriction?_relative {a : Ancestry} :
    ((relative hops).scope.binding a).restriction? ids =
      Filter.memberOf? ((relative hops).scope.targetField a) ids := by
  rw [scope]
  split_ifs <;> rfl

variable {Document : Type} {I : Interpretation Document} {a : Ancestry} {d : Document}
  {least greatest : Nat}

/-- Bound to a working set that is not empty, a scope finds the units that its depth asks for. -/
theorem holds_restriction_iff (hd : I.IsUnit a g d x least greatest) {depth : Depth}
    (hdepth : depth.check = .ok ()) {expanded : List String}
    (hexpanded : ∀ y, y ∈ expanded ↔ depth.scope.expansion.Covers g ids y) (hne : expanded ≠ [])
    {restriction : Json}
    (hr : (depth.scope.binding a).restriction? expanded = some restriction) :
    Filter.Holds I d restriction ↔ depth.Selects g ids x least greatest := by
  cases depth with
  | relative hops =>
    rw [check_relative_eq_ok_iff] at hdepth
    rw [restriction?_relative] at hr
    rcases Int.lt_or_gt_of_ne hdepth with hneg | hpos
    · rw [targetField_of_neg hneg] at hr
      have hfield : I.IsField a.id := hd.isField .id
      rw [Filter.holds_memberOf? hfield hr, Selects, if_neg (by omega)]
      simp only [hd.id, exists_eq_right, hexpanded, covers_of_neg hneg]
    · rw [targetField_of_pos hpos] at hr
      have hfield : I.IsField a.parents := hd.isField .parents
      rw [Filter.holds_memberOf? hfield hr, Selects, if_pos hpos]
      simp only [hd.parents, hexpanded, covers_of_pos hpos]
      constructor
      · intro h
        rcases h with ⟨i, ⟨w, hw, k, hk, hi⟩, hx⟩
        exact ⟨w, hw, k + 1, by omega, by omega, .step hi hx⟩
      · intro h
        rcases h with ⟨w, hw, k, h1, hk, hx⟩
        obtain ⟨j, rfl⟩ : ∃ j, k = j + 1 := ⟨k - 1, by omega⟩
        rcases Graph.reaches_succ_iff.mp hx with ⟨i, hi, hx⟩
        exact ⟨i, ⟨w, hw, j, by omega, hi⟩, hx⟩
  | exact distance =>
    rw [check_exact_eq_ok_iff] at hdepth
    rcases Option.ne_none_iff_exists'.mp (mt Filter.memberOf?_eq_none_iff.mp hne) with ⟨f, hf⟩
    obtain rfl : Filter.within (Filter.memberOf? a.ancestors expanded)
        ⟨a.minDepth, a.maxDepth, magnitude distance⟩ = restriction := Option.some.inj hr
    have hmem : ∀ i, i ∈ expanded ↔ i ∈ ids := hexpanded
    have hfield : I.IsField a.ancestors := hd.isField .ancestors
    rw [hf, Filter.holds_within (hd.isField .minDepth) (hd.isField .maxDepth),
      Filter.holds_memberOf? hfield hf, Selects]
    simp only [hd.ancestors, hd.minDepth, hd.maxDepth, hmem, toNat_magnitude]
    refine and_congr_right fun _ => and_congr ?_ ?_ <;> omega

theorem exists_restriction (depth : Depth) (a : Ancestry) {expanded : List String}
    (hne : expanded ≠ []) :
    ∃ restriction, (depth.scope.binding a).restriction? expanded = some restriction := by
  cases depth with
  | relative hops =>
    rw [restriction?_relative]
    exact Option.ne_none_iff_exists'.mp (mt Filter.memberOf?_eq_none_iff.mp hne)
  | exact distance => exact ⟨_, rfl⟩

end Depth

namespace Step
variable {a : Ancestry} {g : Graph} {ids : List String} {s : Step} {index : Nat} {p : PlanStep}

/-- On every graph, a compiled step that is bound to its expanded working set restricts a search to
exactly the units that its depth asks for, and there are units of every place for it to find. -/
theorem holds_restriction_iff_selects (ha : a.check = .ok ()) {scope : Scope}
    (hs : s.depth.resolve = .ok scope) (hp : s.compile a index = .ok p) {expanded : List String}
    (hexpanded : ∀ y, y ∈ expanded ↔ scope.expansion.Covers g ids y) (hne : expanded ≠ []) :
    ∃ restriction, p.binding.restriction? expanded = some restriction ∧ ∀ x least greatest,
      (∃ (I : Interpretation Graph.Place) (d : Graph.Place), I.IsUnit a g d x least greatest) ∧
      ∀ (Document : Type) (I : Interpretation Document) (d : Document),
        I.IsUnit a g d x least greatest →
          (Filter.Holds I d restriction ↔ s.depth.Selects g ids x least greatest) := by
  rcases Depth.resolve_eq_ok_iff.mp hs with ⟨hdepth, rfl⟩
  rcases compile_eq_ok_iff.mp hp with ⟨-, query, -, rfl⟩
  rcases s.depth.exists_restriction a hne with ⟨restriction, hr⟩
  refine ⟨restriction, hr, fun x least greatest => ⟨?_, ?_⟩⟩
  · exact ⟨g.interpretation a, ⟨x, least, greatest⟩, Graph.isUnit_interpretation ha g _⟩
  · exact fun Document I d hd => Depth.holds_restriction_iff hd hdepth hexpanded hne hr

theorem holds_restriction_iff_selects_two_hops :
    let s : Step := ⟨.existence .present "Title", .relative 2⟩
    let g : Graph := fun p x => p = "a" ∧ x = "b"
    Ancestry.check {} = .ok () ∧ s.depth.resolve = .ok (.descendants 2) ∧
      (∀ y, y ∈ ["a", "b"] ↔ (Scope.descendants 2).expansion.Covers g ["a"] y) ∧
      ∃ p restriction, s.compile {} 0 = .ok p ∧
        p.binding.restriction? ["a", "b"] = some restriction ∧
        ∃ (I : Interpretation Graph.Place) (d : Graph.Place), I.IsUnit {} g d "b" 0 1 ∧
          (Filter.Holds I d restriction ↔ s.depth.Selects g ["a"] "b" 0 1) := by
  intro s g
  have ha : Ancestry.check {} = .ok () := rfl
  have hs : s.depth.resolve = .ok (.descendants 2) := rfl
  have hexpanded : ∀ y, y ∈ ["a", "b"] ↔ (Scope.descendants 2).expansion.Covers g ["a"] y := by
    intro y
    rw [List.mem_cons, List.mem_singleton]
    constructor
    · intro hn
      rcases hn with rfl | rfl
      · exact ⟨"a", List.mem_singleton_self "a", 0, Nat.zero_le _, .here "a"⟩
      · exact ⟨"a", List.mem_singleton_self "a", 1, by decide, .step (.here "a") ⟨rfl, rfl⟩⟩
    · intro hn
      rcases hn with ⟨w, hw, k, -, _ | ⟨-, -, hy⟩⟩
      · exact .inl (List.mem_singleton.mp hw)
      · exact .inr hy
  obtain ⟨p, hp⟩ : ∃ p, s.compile {} 0 = .ok p := ⟨_, rfl⟩
  rcases holds_restriction_iff_selects ha hs hp hexpanded nofun with ⟨restriction, hr, h⟩
  rcases h "b" 0 1 with ⟨⟨I, d, hd⟩, hiff⟩
  exact ⟨ha, hs, hexpanded, p, restriction, hp, hr, I, d, hd, hiff _ I d hd⟩

end Step
end ArchivalQuery
