import ArchivalQuery.Proofs.Node.Building

/-! # Subtrees

Induction over trees, and the subtrees of a tree in the order of the document.
-/
namespace ArchivalQuery.Node

mutual
/-- What holds of leaves, and of connectives whenever it holds of what they join, holds of all
trees. -/
@[elab_as_elim] theorem induction {P : Node → Prop}
    (leaf : ∀ n, (∀ op cs, n ≠ .boolean op cs) → P n)
    (join : ∀ op cs, (∀ n ∈ cs, P n) → P (.boolean op cs)) : ∀ n, P n
  | .comparison _ _ _ => leaf _ nofun
  | .existence _ _ => leaf _ nofun
  | .containment _ _ _ => leaf _ nofun
  | .range _ _ => leaf _ nofun
  | .textMatch _ _ => leaf _ nofun
  | .boolean op cs => join op cs (all_induction leaf join cs)
  | .fullText _ _ _ => leaf _ nofun
  | .path _ => leaf _ nofun
theorem all_induction {P : Node → Prop} (leaf : ∀ n, (∀ op cs, n ≠ .boolean op cs) → P n)
    (join : ∀ op cs, (∀ n ∈ cs, P n) → P (.boolean op cs)) : ∀ ns : List Node, ∀ n ∈ ns, P n
  | [] => by simp
  | n :: ns => List.forall_mem_cons.mpr ⟨induction leaf join n, all_induction leaf join ns⟩
end

mutual
/-- A tree and all trees inside it, each before those that it joins, from left to right. -/
def subtrees : Node → List Node
  | boolean op cs => boolean op cs :: allSubtrees cs
  | n => [n]
def allSubtrees : List Node → List Node
  | [] => []
  | n :: ns => subtrees n ++ allSubtrees ns
end

theorem allSubtrees_eq_flatMap (ns : List Node) : allSubtrees ns = ns.flatMap subtrees := by
  induction ns with
  | nil => rfl
  | cons n ns ih => rw [allSubtrees, ih, List.flatMap_cons]

theorem subtrees_boolean (op : Connective) (cs : List Node) :
    (boolean op cs).subtrees = boolean op cs :: cs.flatMap subtrees := by
  rw [subtrees, allSubtrees_eq_flatMap]

theorem subtrees_leaf {n : Node} (h : ∀ op cs, n ≠ boolean op cs) : n.subtrees = [n] := by
  cases n with
  | boolean op cs => exact absurd rfl (h op cs)
  | _ => rfl

theorem self_mem_subtrees (n : Node) : n ∈ n.subtrees := by
  cases n <;> simp [subtrees]

/-- Every subtree of a writable tree is writable. -/
theorem Writable.subtree {n m : Node} (hn : n.Writable) (hm : m ∈ n.subtrees) : m.Writable := by
  induction n using induction with
  | leaf n h =>
    rw [subtrees_leaf h, List.mem_singleton] at hm
    rwa [hm]
  | join op cs ih =>
    rw [subtrees_boolean, List.mem_cons, List.mem_flatMap] at hm
    rcases hm with rfl | ⟨c, hc, hm⟩
    · exact hn
    · cases hn with
      | boolean _ hchildren => exact ih c hc (hchildren c hc) hm

end ArchivalQuery.Node
