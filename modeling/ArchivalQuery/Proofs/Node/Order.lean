import ArchivalQuery.Proofs.Node.Reading

/-! # The order of keys in expressions and steps

Operators stand in an order that the tree keeps.  Where the keys of an object have no such meaning,
in the bounds of a range, in a search for similar documents and for the modifiers of a step, they
may stand in any order: what is accepted in one order is accepted in the other, with the same tree
and depth.
-/
namespace ArchivalQuery
open Grammar
open Checked (AcceptsAs)

/-- One object with its members in any order, or one and the same value. -/
inductive Json.Reordered : Json → Json → Prop
  | same (v : Json) : Json.Reordered v v
  | members {ms ns : List (String × Json)} (h : ms.Perm ns) : Json.Reordered (.obj ms) (.obj ns)

namespace Expression

mutual
/-- Expressions that differ in the order of bounds and of similarity searches alone. -/
inductive Reordered : Json → Json → Prop
  | same (v : Json) : Reordered v v
  | operators {ms ns : List (String × Json)} (h : OperatorsReordered ms ns) :
      Reordered (.obj ms) (.obj ns)
inductive OperatorsReordered : List (String × Json) → List (String × Json) → Prop
  | nil : OperatorsReordered [] []
  | cons {token : String} {v w : Json} {ms ns : List (String × Json)}
      (hv : OperandReordered token v w) (h : OperatorsReordered ms ns) :
      OperatorsReordered ((token, v) :: ms) ((token, w) :: ns)
inductive OperandReordered : String → Json → Json → Prop
  | same (token : String) (v : Json) : OperandReordered token v v
  /-- The bounds of each field. -/
  | range {fs gs : List (String × Json)}
      (h : List.Forall₂ (fun f g => f.1 = g.1 ∧ f.2.Reordered g.2) fs gs) :
      OperandReordered "$range" (.obj fs) (.obj gs)
  | moreLike {v w : Json} (h : v.Reordered w) : OperandReordered "$mlt" v w
  | connective {token : String} {vs ws : List Json} (htoken : token ∈ connectives)
      (h : ItemsReordered vs ws) : OperandReordered token (.arr vs) (.arr ws)
inductive ItemsReordered : List Json → List Json → Prop
  | nil : ItemsReordered [] []
  | cons {v w : Json} {vs ws : List Json} (hv : Reordered v w) (h : ItemsReordered vs ws) :
      ItemsReordered (v :: vs) (w :: ws)
end

end Expression

/-- Steps with the same operators in the same order, and modifiers anywhere among them. -/
inductive Step.Reordered : Json → Json → Prop
  | same (v : Json) : Step.Reordered v v
  | members {ms ns : List (String × Json)}
      (hmodifiers : (ms.filter (·.1 ∈ modifiers)).Perm (ns.filter (·.1 ∈ modifiers)))
      (hoperators : Expression.OperatorsReordered (ms.filter (·.1 ∉ modifiers))
        (ns.filter (·.1 ∉ modifiers))) : Step.Reordered (.obj ms) (.obj ns)

namespace Expression
variable {ms ns : List (String × Json)}

theorem boundsOf_of_perm (hms : (ms.map Prod.fst).Nodup) (h : ms.Perm ns) {b : Bounds}
    (hb : BoundsOf ms b) : BoundsOf ns b := by
  have hlookup := Json.lookup_eq_of_perm hms h
  exact ⟨fun m hm => hb.keys m (h.mem_iff.mpr hm), hlookup _ ▸ hb.gt, hlookup _ ▸ hb.gte,
    hlookup _ ▸ hb.lt, hlookup _ ▸ hb.lte⟩

/-- A range has one field; its bounds stand in any order. -/
theorem readRange_of_reordered {fs gs : List (String × Json)} (hfs : (Json.obj fs).Distinct)
    (h : List.Forall₂ (fun f g => f.1 = g.1 ∧ f.2.Reordered g.2) fs gs) :
    AcceptsAs (readRange (.obj fs)) (readRange (.obj gs)) := by
  cases h with
  | nil => exact .refl _
  | @cons f g fs gs hfg h =>
    cases h with
    | cons => exact .of_malformed
    | nil =>
      rcases f with ⟨name, v⟩
      rcases g with ⟨name', w⟩
      rcases hfg with ⟨hname, hvw⟩
      obtain rfl : name = name' := hname
      cases hvw with
      | same v => exact .refl _
      | members hperm =>
        have hms := (hfs.member List.mem_cons_self).nodup
        have hbounds := Json.foldlM_acceptsAs_of_perm foldlM_readBound_eq_ok_iff boundsOf_of_perm
          hms hperm
        exact hbounds.bind_left (Build.range name)

theorem similarTo_of_perm (h : ms.Perm ns) {n : Node} (hn : SimilarTo (.obj ms) n) :
    SimilarTo (.obj ns) n := by
  rcases hn with ⟨ms, names, text, ⟨⟩, hms, hn⟩
  exact ⟨ns, names, text, rfl, h.symm.trans hms, hn⟩

theorem readMoreLike_of_reordered {v w : Json} (hv : v.Distinct) (h : v.Reordered w) :
    AcceptsAs (readMoreLike v) (readMoreLike w) := by
  cases h with
  | same => exact .refl _
  | members hperm =>
    refine .of_iff (fun _ => readMoreLike_eq_ok_iff hv)
      (fun _ => readMoreLike_eq_ok_iff (hv.of_perm hperm)) fun n => ?_
    exact ⟨similarTo_of_perm hperm, similarTo_of_perm hperm.symm⟩

theorem OperatorsReordered.keys : ∀ {ms ns}, OperatorsReordered ms ns →
    ms.map Prod.fst = ns.map Prod.fst
  | _, _, .nil => rfl
  | _, _, .cons _ h => congrArg (_ :: ·) h.keys

-- By recursion on how the second value comes from the first; only the leaves look at the order.
mutual
/-- Reordered expressions are accepted alike, with the same tree. -/
theorem Reordered.acceptsAs : ∀ {v w}, Reordered v w → v.Distinct → AcceptsAs (read v) (read w)
  | _, _, .same v, _ => .refl _
  | _, _, .operators h, hv => by
    rw [read, read, checkKeys_congr h.keys]
    exact .bind_right _ fun _ => (h.acceptsAs fun m hm => hv.member hm).bind_left conjunction
theorem OperatorsReordered.acceptsAs : ∀ {ms ns}, OperatorsReordered ms ns →
    (∀ m ∈ ms, m.2.Distinct) → AcceptsAs (readOperators ms) (readOperators ns)
  | _, _, .nil, _ => .refl _
  | _, _, .cons hv h, hms => by
    rw [List.forall_mem_cons] at hms
    exact (hv.acceptsAs hms.1).bind fun n => (h.acceptsAs hms.2).bind_left fun ns => pure (n :: ns)
theorem OperandReordered.acceptsAs : ∀ {token v w}, OperandReordered token v w → v.Distinct →
    AcceptsAs (readOperator token v) (readOperator token w)
  | _, _, _, .same _ _, _ => .refl _
  | _, _, _, .range h, hv => readRange_of_reordered hv h
  | _, _, _, .moreLike h, hv => by
    have hread : ∀ v, readOperator "$mlt" v = readMoreLike v :=
      readOperator_leaf (show leafOrConnective .moreLike = .inr readMoreLike from rfl)
    rw [hread, hread]
    exact readMoreLike_of_reordered hv h
  | _, _, _, .connective htoken h, hv => by
    rcases mem_connectives_iff.mp htoken with ⟨c, rfl⟩
    rw [readOperator_connective, readOperator_connective]
    exact (h.acceptsAs fun x hx => hv.item hx).bind_left (Build.boolean c)
theorem ItemsReordered.acceptsAs : ∀ {vs ws}, ItemsReordered vs ws → (∀ v ∈ vs, v.Distinct) →
    AcceptsAs (readChildren vs) (readChildren ws)
  | _, _, .nil, _ => .refl _
  | _, _, .cons hv h, hvs => by
    rw [List.forall_mem_cons] at hvs
    exact (hv.acceptsAs hvs.1).bind fun n => (h.acceptsAs hvs.2).bind_left fun ns => pure (n :: ns)
end

end Expression

/-- Steps that differ in such an order are accepted alike, with the same tree and depth. -/
theorem Step.Reordered.acceptsAs {v w : Json} (h : Step.Reordered v w) (hv : v.Distinct)
    (index : Nat) : AcceptsAs (Step.read index v) (Step.read index w) := by
  cases h with
  | same => exact .refl _
  | @members ms ns hmodifiers hoperators =>
    have hdepth : Step.readModifiers index ms = Step.readModifiers index ns := by
      apply Step.readModifiers_congr
      intro key hkey
      have hnodup : ((ms.filter (·.1 ∈ modifiers)).map Prod.fst).Nodup :=
        hv.nodup.sublist (List.filter_sublist.map Prod.fst)
      rw [← Json.lookup_filter (· ∈ modifiers) (decide_eq_true hkey),
        Json.lookup_eq_of_perm hnodup hmodifiers,
        Json.lookup_filter (· ∈ modifiers) (decide_eq_true hkey)]
    have hnil : ms.filter (·.1 ∉ modifiers) = [] ↔ ns.filter (·.1 ∉ modifiers) = [] := by
      rw [← List.map_eq_nil_iff, hoperators.keys, List.map_eq_nil_iff]
    have hnode := hoperators.acceptsAs fun m hm => hv.member (List.mem_of_mem_filter hm)
    rw [Step.read_obj, Step.read_obj, hdepth]
    simp only [hnil]
    refine .bind_right _ fun depth => ?_
    have hstep := (hnode.bind_left Expression.conjunction).bind_left
      fun node => (pure { node, depth } : Checked Step)
    exact .ite (.bind_right _ fun _ => hstep) hstep

end ArchivalQuery
