import ArchivalQuery.Proofs.Json.Nesting
import ArchivalQuery.Proofs.Node.Height
import ArchivalQuery.Proofs.Plan.Compile
import ArchivalQuery.Proofs.Request.Entry
import ArchivalQuery.Proofs.Request.Steps

/-! # Nesting of requests and of their plans

The gate bounds the depth of a request, so it bounds the trees of its steps and the filters of its
plan.
-/
namespace ArchivalQuery

/-- Whether the trees of a request and the filters of its plans are as low and as flat as a nesting
of `limit` levels allows. -/
structure Request.NestedWithin (limit : Nat) (r : Request) : Prop where
  height (s : Step) : s ∈ r.steps → s.node.height + 1 ≤ limit
  depth (a : Ancestry) (c : Collection) (p : Plan) :
    r.compile a c = .ok p → ∀ t ∈ p.steps, t.query.depth + 2 ≤ 3 * limit

theorem Request.nestedWithin_of_read {kind : RequestKind} {limits : Limits} {v : Json} {r : Request}
    (h : read kind limits v = .ok r) {limit : Nat} (hv : v.depth ≤ limit) :
    r.NestedWithin limit := by
  have hstep (s : Step) (hs : s ∈ r.steps) :
      ∃ d < limit, s.node.Bounded d (3 * d + 1) := by
    obtain ⟨index, w, hw, hread⟩ := exists_hasStep_of_mem_steps h hs
    exact ⟨w.depth, Nat.lt_of_lt_of_le hw.depth_lt hv, Expression.bounded_invariant.readStep hread⟩
  constructor
  · intro s hs
    obtain ⟨d, hd, hbound⟩ := hstep s hs
    exact Nat.lt_of_le_of_lt hbound.height hd
  · intro a c p hp t ht
    obtain ⟨s, hs, index, hcompile⟩ := exists_compile_of_mem_steps hp ht
    obtain ⟨d, hd, hbound⟩ := hstep s hs
    obtain ⟨-, query, hfilter, rfl⟩ := Step.compile_eq_ok_iff.mp hcompile
    have hdepth := hbound.filter a query hfilter
    dsimp only
    omega

/-- The nesting of a request bounds its trees and its filters.  An expression or a step nested `D`
deep has a tree at most `D` high, whose filters under all configured names are at most `3 * D + 1`
deep.  What passes a gate that grants `N` levels, be it a value or a text, has trees at most `N - 1`
high and its plans filters at most `3 * N - 2` deep. -/
theorem Request.nesting_bounds_trees_and_filters :
    (∀ v n, Expression.read v = .ok n → n.Bounded v.depth (3 * v.depth + 1)) ∧
    (∀ index v s, Step.read index v = .ok s → s.node.Bounded v.depth (3 * v.depth + 1)) ∧
    ∀ kind limits r,
      (∀ v, ofValue kind limits v = .ok r → r.NestedWithin limits.maxNestingDepth.toNat) ∧
      ∀ text, ofText kind limits text = .ok r → r.NestedWithin limits.maxNestingDepth.toNat := by
  refine ⟨fun v n => Expression.bounded_invariant.read,
    fun index v s => Expression.bounded_invariant.readStep, fun kind limits r => ⟨?_, ?_⟩⟩
  · intro v h
    obtain ⟨hgate, hread⟩ := Checked.bind_unit_eq_ok.mp h
    refine nestedWithin_of_read hread ?_
    rw [← Gate.nesting_text]
    exact (Gate.check_eq_ok_iff.mp hgate).2
  · intro text h
    obtain ⟨v, hdecode, hread⟩ := Checked.bind_eq_ok.mp h
    obtain ⟨-, hgate, hv⟩ := decode_eq_ok_iff.mp hdecode
    exact nestedWithin_of_read hread
      (Nat.le_trans (Gate.depth_le_nesting hv) (Gate.check_eq_ok_iff.mp hgate).2)

namespace Samples

/-- A negation of two expressions, the first of two operators, next to another operator. -/
def negation : Json :=
  .obj [("$not", .arr [.obj [("$exists", .str "a"), ("$missing", .str "b")],
    .obj [("$exists", .str "c")]]), ("$exists", .str "d")]

def negationTree : Node :=
  .boolean .and [.boolean .not [.boolean .and [.existence .present "a", .existence .missing "b"],
    .existence .present "c"], .existence .present "d"]

end Samples

open Samples

/-- Four levels of a request allow for trees of height three and for filters of ten levels. -/
theorem Request.nesting_bounds_attained :
    ∃ r p, ofValue .select ⟨1000, 4, 10⟩ (.obj [("$query", negation)]) = .ok r ∧
      r.NestedWithin 4 ∧ r.steps.map (·.node.height) = [3] ∧
      r.compile {} .units = .ok p ∧ p.steps.map (·.query.depth) = [10] := by
  have hgate : Gate.checkValue ⟨1000, 4, 10⟩ (.obj [("$query", negation)]) = .ok () :=
    Gate.check_eq_ok_iff.mpr ⟨by decide +kernel, by decide +kernel⟩
  have hread : ofValue .select ⟨1000, 4, 10⟩ (.obj [("$query", negation)]) = .ok
      { kind := .select, roots := [], steps := [⟨negationTree, .relative 1⟩],
        filter := { limit := 10 }, projection := {}, data := none } := by
    rw [ofValue, hgate]
    rfl
  exact ⟨_, _, hread, (nesting_bounds_trees_and_filters.2.2 _ _ _).1 _ hread, rfl, rfl, rfl⟩

end ArchivalQuery
