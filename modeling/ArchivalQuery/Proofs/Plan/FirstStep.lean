import ArchivalQuery.Proofs.Plan.Scope
import ArchivalQuery.Request.Read

/-! # The first step under roots

The first step of a request is free of restriction if its expanded working set is empty.  Roots
that are given leave the set empty in one case only: the step looks upwards and every root is a top
of the graph.  In that case the scope has no member, and still the command is the bare expression.
-/
namespace ArchivalQuery
open ArchivalQuery.Filter (Interpretation)
open Json (single)

variable {g : Graph} {ids : List String}

def Depth.Upward : Depth → Prop
  | relative hops => hops.toInt < 0
  | exact _ => False

/-- Whether a graph has nothing above some identifiers. -/
def Graph.Tops (g : Graph) (ids : List String) : Prop := ∀ w ∈ ids, ∀ q, ¬g q w

/-- Whether a command for an expanded working set, if there is one, is the expression under a
restriction that only units in the scope of the step can pass. -/
def PlanStep.Confined (p : PlanStep) (a : Ancestry) (g : Graph) (depth : Depth)
    (ids expanded : List String) : Prop :=
  ∀ f, p.command? expanded = some f → ∃ restriction,
    f = Filter.restrict p.query (some restriction) ∧
      ∀ (Document : Type) (I : Interpretation Document) (d : Document) (x : String)
        (least greatest : Nat), I.IsUnit a g d x least greatest → Filter.Holds I d restriction →
          depth.Selects g ids x least greatest

namespace Depth

/-- What an upward depth covers is above the set. -/
theorem exists_covers_iff_of_neg {hops : Int32} (h : hops.toInt < 0) :
    (∃ y, (relative hops).scope.expansion.Covers g ids y) ↔ ∃ w ∈ ids, ∃ q, g q w := by
  simp only [covers_of_neg h]
  constructor
  · intro hn
    rcases hn with ⟨y, w, hw, k, hk, -, hy⟩
    exact ⟨w, hw, Graph.exists_parent_of_reaches hk hy⟩
  · intro hn
    rcases hn with ⟨w, hw, q, hq⟩
    exact ⟨q, w, hw, 1, Nat.le_refl 1, by omega, .step (.here q) hq⟩

/-- Roots are expanded to nothing in one case only. -/
theorem exists_covers_iff {depth : Depth} (hdepth : depth.check = .ok ()) (hids : ids ≠ []) :
    (∃ y, depth.scope.expansion.Covers g ids y) ↔ ¬(depth.Upward ∧ g.Tops ids) := by
  rcases List.exists_mem_of_ne_nil ids hids with ⟨w, hw⟩
  cases depth with
  | relative hops =>
    rw [check_relative_eq_ok_iff] at hdepth
    rcases Int.lt_or_gt_of_ne hdepth with hneg | hpos
    · rw [exists_covers_iff_of_neg hneg]
      simp [Upward, Graph.Tops, hneg]
    · have hup : ¬(relative hops).Upward := Int.lt_asymm hpos
      apply iff_of_true ⟨w, (covers_of_pos hpos).mpr ⟨w, hw, 0, by omega, .here w⟩⟩
      exact fun h => hup h.1
  | exact distance => exact iff_of_true ⟨w, hw⟩ fun h => h.1

end Depth

theorem Filter.restrict_ne (query restriction : Json) :
    restrict query (some restriction) ≠ query := by
  intro h
  have hsize := congrArg sizeOf h
  simp [restrict, single] at hsize
  omega

/-- Nothing is above the tops of a graph. -/
theorem Depth.not_selects_of_tops {depth : Depth} (hup : depth.Upward) (htops : g.Tops ids)
    (x : String) (least greatest : Nat) : ¬depth.Selects g ids x least greatest := by
  cases depth with
  | relative hops =>
    have hneg : ¬0 < hops.toInt := Int.lt_asymm hup
    rw [Selects, if_neg hneg]
    intro h
    rcases h with ⟨w, hw, k, hk, -, hx⟩
    rcases Graph.exists_parent_of_reaches hk hx with ⟨q, hq⟩
    exact htops w hw q hq
  | exact distance => exact hup.elim

theorem Depth.restriction?_nil_of_upward {depth : Depth} (hup : depth.Upward) (a : Ancestry) :
    (depth.scope.binding a).restriction? [] = none := by
  cases depth with
  | relative hops =>
    rw [restriction?_relative]
    rfl
  | exact distance => exact hup.elim

/-- The first step under given roots is confined to its scope unless it looks upwards from tops of
the graph; then nothing is in scope, and the command is the expression without any restriction. -/
theorem Request.first_confined_iff {a : Ancestry} {c : Collection} {r : Request} {plan : Plan}
    {s : Step} {ss : List Step} {p : PlanStep} {ps : List PlanStep}
    (hplan : r.compile a c = .ok plan) (hs : r.steps = s :: ss) (hp : plan.steps = p :: ps)
    (hroots : r.roots ≠ []) {expanded : List String}
    (hexpanded : ∀ y, y ∈ expanded ↔ p.expansion.Covers g r.roots y) :
    (p.Confined a g s.depth r.roots expanded ↔ ¬(s.depth.Upward ∧ g.Tops r.roots)) ∧
      (s.depth.Upward ∧ g.Tops r.roots → p.command? expanded = some p.query ∧
        ∀ x least greatest, ¬s.depth.Selects g r.roots x least greatest) := by
  rcases Step.compile_eq_ok_iff.mp (compile_head hplan hs hp) with ⟨hdepth, query, -, rfl⟩
  have hcovers := Depth.exists_covers_iff (g := g) hdepth hroots
  have hempty : expanded ≠ [] ↔ ¬(s.depth.Upward ∧ g.Tops r.roots) := by
    rw [← hcovers, ← exists_congr hexpanded]
    exact ⟨List.exists_mem_of_ne_nil expanded, fun ⟨y, hy⟩ => List.ne_nil_of_mem hy⟩
  have bare (hbad : s.depth.Upward ∧ g.Tops r.roots) :
      (PlanStep.mk 0 s.depth.scope s.depth.scope.expansion query
        (s.depth.scope.binding a)).command? expanded = some query := by
    obtain rfl : expanded = [] := not_not.mp (mt hempty.mp (not_not.mpr hbad))
    simp [PlanStep.command?, Depth.restriction?_nil_of_upward hbad.1, Filter.restrict]
  refine ⟨⟨fun hconfined hbad => ?_, fun h => ?_⟩, fun hbad => ⟨bare hbad, ?_⟩⟩
  · rcases hconfined _ (bare hbad) with ⟨restriction, hf, -⟩
    exact Filter.restrict_ne _ _ hf.symm
  · have hne := hempty.mpr h
    rcases s.depth.exists_restriction a hne with ⟨restriction, hr⟩
    intro f hf
    obtain rfl : Filter.restrict query (some restriction) = f := by
      simpa [PlanStep.command?, hr] using hf
    exact ⟨restriction, rfl, fun Document I d x least greatest hd =>
      (Depth.holds_restriction_iff hd hdepth hexpanded hne hr).mp⟩
  · exact Depth.not_selects_of_tops hbad.1 hbad.2

theorem Request.first_confined_iff_below_top :
    let s : Step := ⟨.existence .present "Title", .relative (-1)⟩
    let r : Request := ⟨.select, ["a"], [s], { limit := 1 }, {}, none⟩
    let g : Graph := fun p x => p = "top" ∧ x = "a"
    ∃ plan p, r.compile {} .units = .ok plan ∧ plan.steps = [p] ∧
      (∀ y, y ∈ ["top"] ↔ p.expansion.Covers g r.roots y) ∧
      p.Confined {} g s.depth r.roots ["top"] := by
  intro s r g
  obtain ⟨plan, hplan⟩ : ∃ plan, r.compile {} .units = .ok plan := ⟨_, rfl⟩
  obtain ⟨p, hp⟩ : ∃ p, plan.steps = [p] := by
    obtain rfl := Except.ok.inj hplan
    exact ⟨_, rfl⟩
  have hexpansion : p.expansion = .ancestors 1 := by
    obtain rfl := Except.ok.inj hplan
    obtain rfl := List.singleton_inj.mp hp
    rfl
  have hexpanded : ∀ y, y ∈ ["top"] ↔ p.expansion.Covers g r.roots y := by
    intro y
    rw [hexpansion, List.mem_singleton]
    constructor
    · rintro rfl
      exact ⟨"a", List.mem_singleton_self "a", 1, Nat.le_refl 1, by decide,
        .step (.here "top") ⟨rfl, rfl⟩⟩
    · intro hn
      rcases hn with ⟨w, -, k, hk, hle, h⟩
      obtain rfl : k = 1 := Nat.le_antisymm hle hk
      rcases Graph.reaches_succ_iff.mp h with ⟨q, hq, hx⟩
      rw [Graph.reaches_zero_iff.mp hq]
      exact hx.1
  have hbelow : ¬(s.depth.Upward ∧ g.Tops r.roots) := fun h =>
    h.2 "a" (List.mem_singleton_self "a") "top" ⟨rfl, rfl⟩
  have h := first_confined_iff hplan rfl hp (List.cons_ne_nil "a" []) hexpanded
  exact ⟨plan, p, hplan, hp, hexpanded, h.1.mpr hbelow⟩

/-- A root without parents, asked for its parents: the command finds units that are none of them. -/
theorem Request.first_not_confined_of_top :
    let g : Graph := fun _ _ => False
    ∃ r plan p f, Request.read .select {} (.obj [("$roots", .ofStrings ["top"]), ("$query",
        .arr [.obj [("$exists", .str "Title"), ("$depth", .ofInt32 (-1))]])]) = .ok r ∧
      r.roots ≠ [] ∧ r.compile {} .units = .ok plan ∧ plan.steps = [p] ∧
      (∀ y, y ∈ [] ↔ p.expansion.Covers g r.roots y) ∧ p.command? [] = some f ∧
      ∃ (I : Interpretation Graph.Place) (d : Graph.Place), I.IsUnit {} g d "other" 0 0 ∧
        Filter.Holds I d f ∧ ¬(Depth.relative (-1)).Selects g r.roots "other" 0 0 := by
  intro g
  refine ⟨_, _, _, _, rfl, List.cons_ne_nil "top" [], rfl, rfl, ?_, rfl, g.interpretation {},
    ⟨"other", 0, 0⟩, Graph.isUnit_interpretation rfl g _, ?_, ?_⟩
  · intro y
    apply iff_of_false List.not_mem_nil
    intro hn
    rcases hn with ⟨w, -, k, hk, -, h⟩
    exact (Graph.exists_parent_of_reaches hk h).elim fun _ h => h
  · have htitle : (g.interpretation {}).passes ⟨"other", 0, 0⟩ "Title" .present (.bool true) :=
      trivial
    exact (Filter.holds_test trivial rfl).mpr htitle
  · have hup : (Depth.relative (-1)).Upward := by
      unfold Depth.Upward
      decide
    exact Depth.not_selects_of_tops hup (fun _ _ _ h => h) _ _ _

end ArchivalQuery
