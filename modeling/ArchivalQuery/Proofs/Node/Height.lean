import ArchivalQuery.Proofs.Json.Depth
import ArchivalQuery.Proofs.Node.Filters
import ArchivalQuery.Proofs.Node.Writable

/-! # Heights of trees and depths of their filters

A tree is no higher than the value it is read from is deep.  Its filter can be three times as deep,
since two connectives come at no depth of the value: the conjunction of the operators of an object,
and the one inside a negation of several expressions.
-/
namespace ArchivalQuery
open Json (single)

/-- How much deeper than its parts the document of a connective can be. -/
def Connective.cost : Connective → Nat
  | and | or => 2
  | not => 4

namespace Node

mutual
/-- How many connectives stand around the innermost leaf of a tree. -/
def height : Node → Nat
  | boolean _ cs => tallest cs + 1
  | _ => 0
def tallest : List Node → Nat
  | [] => 0
  | n :: ns => max (height n) (tallest ns)
end

theorem tallest_le_iff {ns : List Node} {h : Nat} : tallest ns ≤ h ↔ ∀ n ∈ ns, n.height ≤ h := by
  induction ns with
  | nil => simp [tallest]
  | cons n ns ih => rw [tallest, Nat.max_le, ih, List.forall_mem_cons]

section Leaves
variable {a : Ancestry} {f : Json}

theorem depth_comparisonFilter_le {key : String} {op : Comparison} {v : Json} (hv : v.isScalar) :
    (comparisonFilter key op v).depth ≤ 2 := by
  cases op <;> simp [comparisonFilter, Json.depth_of_isScalar hv]

theorem depth_existenceFilter (key : String) (op : Existence) :
    (existenceFilter key op).depth = 2 := by
  cases op with
  | present | missing => simp [existenceFilter, Json.depth]
  | isNull =>
    have hscalar : (Json.ofNat nullType).isScalar := Json.isScalar_ofNat (by decide)
    rw [existenceFilter, Json.depth_single, Json.depth_single, Json.depth_of_isScalar hscalar]

theorem depth_rangeFilter_le {key : String} {b : Bounds} (hb : b.Proper) :
    (rangeFilter key b).depth ≤ 2 := by
  rw [rangeFilter, Json.depth_single, Nat.add_le_add_iff_right, ← Nat.zero_add 1,
    Json.depth_obj_le_iff]
  exact List.forall_mem_map.mpr fun p hp => Nat.le_of_eq (Json.depth_of_isScalar (hb.scalar p hp))

theorem depth_termFilter_le {pairs : List FieldValue} (hpairs : ∀ p ∈ pairs, p.value.isScalar)
    (h : textFilter a .term pairs = .ok f) : f.depth ≤ 3 := by
  have hall : ∀ g ∈ pairs.map fun p => single (Field.stored a p.field) p.value, g.depth ≤ 1 := by
    refine List.forall_mem_map.mpr fun p hp => Nat.le_of_eq ?_
    rw [Json.depth_single, Json.depth_of_isScalar (hpairs p hp)]
  obtain hf | rfl := textFilter_term h
  · exact Nat.le_trans (hall f (hf ▸ List.mem_singleton_self f)) (by omega)
  · rw [Json.depth_single, Nat.add_le_add_iff_right, Json.depth_arr_le_iff]
    exact hall

theorem depth_memberOf?_le {key : String} {ids : List String}
    (h : Filter.memberOf? key ids = some f) : f.depth ≤ 3 := by
  unfold Filter.memberOf? at h
  split at h
  · cases h
  · obtain rfl := Option.some.inj h
    simp [Json.depth]
  · obtain rfl := Option.some.inj h
    rw [Json.depth_single, Json.depth_single, Nat.add_le_add_iff_right, Nat.add_le_add_iff_right,
      Json.ofStrings, ← Nat.zero_add 1, Json.depth_arr_le_iff]
    exact List.forall_mem_map.mpr fun _ _ => Nat.le_refl 0

theorem Writable.depth_filter_le {n : Node} (hn : n.Writable) (hleaf : n.height = 0)
    (h : n.filter a = .ok f) : f.depth ≤ 3 := by
  cases hn with
  | comparison _ hv =>
    obtain rfl := Except.ok.inj h
    exact Nat.le_succ_of_le (depth_comparisonFilter_le hv.isScalar)
  | existence _ =>
    obtain rfl := Except.ok.inj h
    exact Nat.le_succ_of_le (Nat.le_of_eq (depth_existenceFilter _ _))
  | containment _ _ hvs =>
    obtain rfl := Except.ok.inj h
    rw [Json.depth_single, Json.depth_single, Nat.add_le_add_iff_right, Nat.add_le_add_iff_right,
      ← Nat.zero_add 1, Json.depth_arr_le_iff]
    exact fun v hv => Nat.le_of_eq (Json.depth_of_isScalar (hvs v hv))
  | range _ hb =>
    obtain rfl := Except.ok.inj h
    exact Nat.le_succ_of_le (depth_rangeFilter_le hb)
  | pattern hop _ =>
    rw [filter, textFilter_pattern hop] at h
    obtain rfl := Except.ok.inj h
    simp [Json.depth, Json.membersDepth]
  | term _ hpairs => exact depth_termFilter_le (fun p hp => (hpairs p hp).2) h
  | boolean => exact absurd hleaf (Nat.succ_ne_zero _)
  | fullText => cases h
  | path =>
    unfold filter at h
    split at h
    · rename_i hids
      obtain rfl := Except.ok.inj h
      exact depth_memberOf?_le hids
    · exact absurd h Checked.malformed_ne_ok

end Leaves

theorem depth_connect_le {op : Connective} {fs : List Json} {d : Nat} (h : ∀ f ∈ fs, f.depth ≤ d) :
    (connect op fs).depth ≤ d + op.cost := by
  have hall (key : String) : (single key (.arr fs)).depth ≤ d + 2 := by
    rw [Json.depth_single, Nat.add_le_add_iff_right, Json.depth_arr_le_iff]
    exact h
  unfold connect
  split
  · exact hall "$and"
  · exact hall "$or"
  · exact Nat.le_trans (hall "$nor") (by simp [Connective.cost])
  · rw [Json.depth_single, Connective.cost, Nat.add_le_add_iff_right, Json.depth_arr_le_iff]
    exact List.forall_mem_singleton.mpr (hall "$and")

/-- Whether a tree is at most so high and its filters, under all configured names, so deep. -/
structure Bounded (height depth : Nat) (n : Node) : Prop where
  height : n.height ≤ height
  filter (a : Ancestry) (f : Json) : n.filter a = .ok f → f.depth ≤ depth

theorem Bounded.mono {h h' d d' : Nat} {n : Node} (hn : n.Bounded h d) (hh : h ≤ h') (hd : d ≤ d') :
    n.Bounded h' d' :=
  ⟨Nat.le_trans hn.height hh, fun a f hf => Nat.le_trans (hn.filter a f hf) hd⟩

theorem bounded_boolean {op : Connective} {cs : List Node} {h d : Nat} (hne : cs ≠ [])
    (hcs : ∀ n ∈ cs, n.Bounded h d) : (boolean op cs).Bounded (h + 1) (d + op.cost) where
  height := by
    rw [height, Nat.add_le_add_iff_right, tallest_le_iff]
    exact fun n hn => (hcs n hn).height
  filter a f hf := by
    rw [filter_boolean op hne, Checked.map_eq_ok] at hf
    obtain ⟨fs, hfs, rfl⟩ := hf
    refine depth_connect_le fun g hg => ?_
    obtain ⟨n, hn, hng⟩ := Checked.exists_of_mem_mapM hfs hg
    exact (hcs n hn).filter a g hng

end Node

namespace Expression
open Node (Bounded)

/-- Only tests for existence are read from operands without depth. -/
theorem leaf_of_readLeaf {op : Operator} {readLeaf : Json → Checked Node} {v : Json} {n : Node}
    (hop : leafOrConnective op = .inr readLeaf) (h : readLeaf v = .ok n) :
    n.height = 0 ∧ ((∃ e field, n = .existence e field) ∨ 0 < v.depth) := by
  have hobj (ms : List (String × Json)) : 0 < (Json.obj ms).depth := Nat.succ_pos _
  have harr (vs : List Json) : 0 < (Json.arr vs).depth := Nat.succ_pos _
  cases op <;> simp only [leafOrConnective, Sum.inr.injEq, reduceCtorEq] at hop <;> subst hop
  case present | missing | isNull =>
    obtain ⟨name, -, -, rfl⟩ := readExistence_eq_ok_iff.mp h
    exact ⟨rfl, .inl ⟨_, name, rfl⟩⟩
  case within | notWithin =>
    obtain ⟨name, ws, rfl, -, -, -, rfl⟩ := readContainment_eq_ok_iff.mp h
    exact ⟨rfl, .inr (hobj _)⟩
  case size | gt | gte | lt | lte | eq | ne =>
    obtain ⟨name, w, rfl, -, -, rfl⟩ := readComparison_eq_ok_iff.mp h
    exact ⟨rfl, .inr (hobj _)⟩
  case wildcard =>
    obtain ⟨name, text, rfl, -, rfl⟩ := readWildcard_eq_ok_iff.mp h
    exact ⟨rfl, .inr (hobj _)⟩
  case regex =>
    obtain ⟨name, text, rfl, -, rfl⟩ := readRegex_eq_ok_iff.mp h
    exact ⟨rfl, .inr (hobj _)⟩
  case range =>
    obtain ⟨p, hp, h⟩ := Checked.bind_eq_ok.mp h
    obtain ⟨ms, -, h⟩ := Checked.bind_eq_ok.mp h
    obtain ⟨b, -, h⟩ := Checked.bind_eq_ok.mp h
    obtain ⟨-, -, rfl⟩ := Build.range_eq_ok_iff.mp h
    obtain rfl := soleField_eq_ok_iff.mp hp
    exact ⟨rfl, .inr (hobj _)⟩
  case term =>
    obtain ⟨ms, rfl, -, -, rfl⟩ := readTerm_eq_ok_iff.mp h
    exact ⟨rfl, .inr (hobj _)⟩
  case path =>
    obtain ⟨ids, rfl, -, rfl⟩ := readPath_eq_ok_iff.mp h
    exact ⟨rfl, .inr (harr _)⟩
  case matching | leading | search =>
    obtain ⟨name, text, rfl, -, rfl⟩ := readFullText_eq_ok_iff.mp h
    exact ⟨rfl, .inr (hobj _)⟩
  case moreLike =>
    obtain ⟨ms, hms, hparts⟩ := Checked.bind_eq_ok.mp h
    obtain ⟨parts, -, hn⟩ := Checked.bind_eq_ok.mp hparts
    obtain rfl := asObject_eq_ok_iff.mp hms
    split at hn
    · obtain ⟨-, -, rfl⟩ := Build.fullText_eq_ok_iff.mp hn
      exact ⟨rfl, .inr (hobj _)⟩
    · exact absurd hn Checked.malformed_ne_ok

theorem readLeaf_bounded {op : Operator} {readLeaf : Json → Checked Node} {v : Json} {n : Node}
    (hop : leafOrConnective op = .inr readLeaf) (h : readLeaf v = .ok n) :
    n.Bounded v.depth (3 * v.depth + 2) := by
  obtain ⟨hleaf, hv⟩ := leaf_of_readLeaf hop h
  constructor
  · exact Nat.le_trans (Nat.le_of_eq hleaf) (Nat.zero_le _)
  · intro a f hf
    obtain ⟨e, field, rfl⟩ | hpos := hv
    · obtain rfl := Except.ok.inj hf
      rw [Node.depth_existenceFilter]
      omega
    · have hthree := (readLeaf_writable hop h).depth_filter_le hleaf hf
      omega

/-- The tree of an expression of depth `D` is at most `D` high and its filters at most `3 * D + 1`
deep.  An operand allows for one more level, which its expression takes up. -/
theorem bounded_invariant : Invariant (fun v n => n.Bounded v.depth (3 * v.depth + 1))
    (fun v n => n.Bounded v.depth (3 * v.depth + 2)) where
  leaf := readLeaf_bounded
  join c vs ns hne hns := by
    have hall : ∀ n ∈ ns, n.Bounded (Json.itemsDepth vs) (3 * Json.itemsDepth vs + 1) := by
      intro n hn
      obtain ⟨v, hv, hbound⟩ := hns n hn
      have hle := Json.itemsDepth_le_iff.mp (Nat.le_refl _) v hv
      exact hbound.mono hle (by omega)
    have hcost : c.cost ≤ 4 := by cases c <;> decide
    rw [Json.depth]
    exact (Node.bounded_boolean hne hall).mono (Nat.le_refl _) (by omega)
  object {ms ns n} hns hn := by
    have hall : ∀ m ∈ ns, m.Bounded (Json.membersDepth ms) (3 * Json.membersDepth ms + 2) := by
      intro m hm
      obtain ⟨p, hp, hbound⟩ := hns m hm
      have hle := Json.membersDepth_le_iff.mp (Nat.le_refl _) p hp
      exact hbound.mono hle (by omega)
    rw [Json.depth]
    cases hn with
    | one => exact (hall n List.mem_cons_self).mono (by omega) (by omega)
    | several =>
      exact (Node.bounded_boolean (List.cons_ne_nil _ _) hall).mono (Nat.le_refl _)
        (by simp only [Connective.cost]; omega)

end Expression
end ArchivalQuery
