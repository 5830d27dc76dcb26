import ArchivalQuery.Proofs.Depth
import ArchivalQuery.Proofs.Node.Operands

/-! # Readers of expressions and steps

By induction over values, the readers of expressions and operators accept exactly the values of the
grammar, with their trees.  The same holds of steps.
-/
namespace ArchivalQuery
open Grammar

namespace Expression

theorem operatorOf_eq_ok_iff {token : String} {op : Operator} :
    operatorOf token = .ok op ↔ token = op.token := by
  rw [← Operator.ofToken?_eq_some_iff]
  unfold operatorOf
  cases Operator.ofToken? token with
  | some op' => simp
  | none =>
    dsimp only
    split <;> simp

theorem conjunction_eq_ok_iff {ns : List Node} {n : Node} :
    conjunction ns = .ok n ↔ Joined ns n := by
  match ns with
  | [] =>
    have h : ¬Joined [] n := nofun
    simp [conjunction, Build.boolean_eq_ok_iff, h]
  | [m] =>
    rw [conjunction, Except.ok.injEq]
    exact ⟨fun h => h ▸ .one, fun h => by cases h; rfl⟩
  | m :: m' :: ns =>
    rw [conjunction, Build.boolean_eq_ok_iff]
    · exact ⟨fun h => h.2 ▸ .several, fun h => by cases h; exact ⟨List.cons_ne_nil _ _, rfl⟩⟩
    · exact nofun

theorem isModifier_iff {key : String} : isModifier key = true ↔ key ∈ modifiers := by
  rw [isModifier, Option.isSome_iff_exists]
  simp only [StepModifier.ofToken?_eq_some_iff, modifiers, List.mem_cons, List.not_mem_nil,
    or_false]
  constructor
  · intro hn
    rcases hn with ⟨m, rfl⟩
    cases m <;> simp [StepModifier.token]
  · intro hn
    rcases hn with h | h
    · exact ⟨.depth, h⟩
    · exact ⟨.exactDepth, h⟩

theorem checkKeys_eq_ok_iff {ms : List (String × Json)} :
    checkKeys ms = .ok () ↔ ms ≠ [] ∧ ∀ m ∈ ms, m.1 ∉ modifiers := by
  unfold checkKeys
  rw [Checked.guard_eq_ok, List.isEmpty_iff]
  refine and_congr_right fun _ => ?_
  simp only [← isModifier_iff]
  cases h : ms.find? (isModifier ·.1) with
  | none => simpa using h
  | some m =>
    have hm := List.find?_some h
    have hmem := List.mem_of_find?_eq_some h
    simp only [Checked.malformed_ne_ok, false_iff, not_forall, not_not]
    exact ⟨m, hmem, hm⟩

theorem checkKeys_eq (ms : List (String × Json)) : checkKeys ms =
    if (ms.map Prod.fst).isEmpty then malformed .expressionEmpty
    else match (ms.map Prod.fst).find? isModifier with
      | some key => malformed (.nestedModifier key)
      | none => .ok () := by
  have hkey : isModifier ∘ Prod.fst = fun m : String × Json => isModifier m.1 := rfl
  rw [checkKeys, List.isEmpty_map, List.find?_map, hkey]
  cases ms.find? (isModifier ·.1) with
  | none => rfl
  | some m => rfl

/-- The check of the keys does not look at the operands. -/
theorem checkKeys_congr {ms ns : List (String × Json)} (h : ms.map Prod.fst = ns.map Prod.fst) :
    checkKeys ms = checkKeys ns := by
  rw [checkKeys_eq, checkKeys_eq, h]

theorem readChildren_eq_ok_iff {vs : List Json}
    (h : ∀ v ∈ vs, ∀ n, read v = .ok n ↔ Grammar.Expression v n) {ns : List Node} :
    readChildren vs = .ok ns ↔ Expressions vs ns := by
  induction vs generalizing ns with
  | nil =>
    rw [readChildren, Except.ok.injEq]
    exact ⟨fun e => e ▸ .nil, fun e => by cases e; rfl⟩
  | cons v vs ih =>
    rw [List.forall_mem_cons] at h
    simp only [readChildren, Checked.bind_eq_ok, Checked.pure_eq_ok, h.1, ih h.2]
    constructor
    · intro hyp
      rcases hyp with ⟨n, hn, ns, hns, rfl⟩
      exact .cons hn hns
    · intro hns
      cases hns with
      | cons hn hns => exact ⟨_, hn, _, hns, rfl⟩

theorem readOperators_eq_ok_iff {ms : List (String × Json)}
    (h : ∀ m ∈ ms, ∀ token n, readOperator token m.2 = .ok n ↔ Application token m.2 n)
    {ns : List Node} : readOperators ms = .ok ns ↔ Operators ms ns := by
  induction ms generalizing ns with
  | nil =>
    rw [readOperators, Except.ok.injEq]
    exact ⟨fun e => e ▸ .nil, fun e => by cases e; rfl⟩
  | cons m ms ih =>
    rw [List.forall_mem_cons] at h
    simp only [readOperators, Checked.bind_eq_ok, Checked.pure_eq_ok, h.1, ih h.2]
    constructor
    · intro hyp
      rcases hyp with ⟨n, hn, ns, hns, rfl⟩
      exact .cons hn hns
    · intro hns
      cases hns with
      | cons hn hns => exact ⟨_, hn, _, hns, rfl⟩

theorem ne_nil_iff_of_expressions {vs : List Json} {ns : List Node} (h : Expressions vs ns) :
    ns ≠ [] ↔ vs ≠ [] := by
  cases h with
  | nil => simp
  | cons => simp

theorem readOperator_leaf {op : Operator} {readLeaf : Json → Checked Node}
    (h : leafOrConnective op = .inr readLeaf) (v : Json) :
    readOperator op.token v = readLeaf v := by
  rw [readOperator, operatorOf_eq_ok_iff.mpr rfl]
  dsimp only [bind, Except.bind]
  rw [h]

theorem mem_connectives_iff {token : String} :
    token ∈ connectives ↔ ∃ c : Connective, token = c.operator.token := by
  simp only [connectives, List.mem_cons, List.not_mem_nil, or_false]
  constructor
  · rintro (rfl | rfl | rfl)
    exacts [⟨.and, rfl⟩, ⟨.or, rfl⟩, ⟨.not, rfl⟩]
  · rintro ⟨c, rfl⟩
    cases c <;> decide

theorem readOperator_connective (c : Connective) (vs : List Json) :
    readOperator c.operator.token (.arr vs) = readChildren vs >>= Build.boolean c := by
  cases c <;> rfl

/-- An operator that joins expressions takes a non-empty array of them. -/
theorem connective_eq_ok_iff {c : Connective} {v : Json} {n : Node}
    (hvs : ∀ vs, v = .arr vs → ∀ ns, readChildren vs = .ok ns ↔ Expressions vs ns) :
    readOperator c.operator.token v = .ok n ↔
      ∃ vs ns, v = .arr vs ∧ vs ≠ [] ∧ Expressions vs ns ∧ n = .boolean c ns := by
  cases v with
  | arr vs =>
    rw [readOperator_connective, Checked.bind_eq_ok]
    simp only [hvs vs rfl, Build.boolean_eq_ok_iff]
    constructor
    · intro hyp
      rcases hyp with ⟨ns, hns, hne, hn⟩
      exact ⟨vs, ns, rfl, (ne_nil_iff_of_expressions hns).mp hne, hns, hn⟩
    · intro hyp
      rcases hyp with ⟨_, ns, ⟨⟩, hne, hns, hn⟩
      exact ⟨ns, hns, (ne_nil_iff_of_expressions hns).mpr hne, hn⟩
  | _ =>
    apply iff_of_false
    · cases c <;> exact Checked.malformed_ne_ok
    · intro hyp
      rcases hyp with ⟨_, _, ⟨⟩, _⟩

theorem readOperator_eq_ok_iff {token : String} {v : Json} {n : Node} (hv : v.Distinct)
    (hvs : ∀ vs, v = .arr vs → ∀ ns, readChildren vs = .ok ns ↔ Expressions vs ns) :
    readOperator token v = .ok n ↔ Application token v n := by
  constructor
  · intro h
    rcases Checked.bind_eq_ok.mp (by rwa [readOperator] at h) with ⟨op, hop, -⟩
    rw [operatorOf_eq_ok_iff] at hop
    subst hop
    cases hop : leafOrConnective op with
    | inl c =>
      obtain rfl := leafOrConnective_eq_inl_iff.mp hop
      rcases (connective_eq_ok_iff hvs).mp h with ⟨vs, ns, rfl, hne, hns, rfl⟩
      exact .connective (mem_connectiveTokens_iff.mpr rfl) hne hns
    | inr readLeaf =>
      rw [readOperator_leaf hop] at h
      exact .operand (mem_operatorTokens_iff.mpr rfl) ((readLeaf_eq_ok_iff hv hop).mp h)
  · intro h
    cases h with
    | @operand _ op _ _ htoken h =>
      obtain rfl := mem_operatorTokens_iff.mp htoken
      cases hop : leafOrConnective op with
      | inl c =>
        obtain rfl := leafOrConnective_eq_inl_iff.mp hop
        cases c <;> exact h.elim
      | inr readLeaf =>
        rw [readOperator_leaf hop]
        exact (readLeaf_eq_ok_iff hv hop).mpr h
    | connective htoken hne hns =>
      obtain rfl := mem_connectiveTokens_iff.mp htoken
      exact (connective_eq_ok_iff hvs).mpr ⟨_, _, rfl, hne, hns, rfl⟩

theorem read_obj_eq_ok_iff {ms : List (String × Json)} {n : Node}
    (h : ∀ m ∈ ms, ∀ token n, readOperator token m.2 = .ok n ↔ Application token m.2 n) :
    read (.obj ms) = .ok n ↔ Grammar.Expression (.obj ms) n := by
  rw [read, Checked.bind_unit_eq_ok, checkKeys_eq_ok_iff]
  simp only [Checked.bind_eq_ok, readOperators_eq_ok_iff h, conjunction_eq_ok_iff]
  constructor
  · intro hyp
    rcases hyp with ⟨⟨hne, hms⟩, ns, hns, hn⟩
    exact .intro hne hms hns hn
  · intro hyp
    rcases hyp with ⟨hne, hms, hns, hn⟩
    exact ⟨⟨hne, hms⟩, _, hns, hn⟩

/-- Expressions and operators with their operands are read at once: either may hold the other. -/
theorem read_and_readOperator_eq_ok_iff {v : Json} (hv : v.Distinct) :
    (∀ n, read v = .ok n ↔ Grammar.Expression v n) ∧
      ∀ token n, readOperator token v = .ok n ↔ Application token v n := by
  induction v using Json.induction with
  | leaf v harr hobj =>
    constructor
    · intro n
      have hread : read v ≠ .ok n := by cases v <;> simp_all [read, Json.obj?]
      apply iff_of_false hread
      intro h
      cases h
      simp [Json.obj?] at hobj
    · intro token n
      apply readOperator_eq_ok_iff hv
      rintro vs rfl
      simp [Json.arr?] at harr
  | arr vs ih =>
    constructor
    · intro n
      have hread : read (.arr vs) ≠ .ok n := by simp [read]
      apply iff_of_false hread
      intro h
      cases h
    · intro token n
      apply readOperator_eq_ok_iff hv
      rintro _ ⟨⟩ ns
      exact readChildren_eq_ok_iff fun v hmem => (ih v hmem (hv.item hmem)).1
  | obj ms ih =>
    have hms : ∀ m ∈ ms, ∀ token n, readOperator token m.2 = .ok n ↔ Application token m.2 n :=
      fun m hm => (ih m hm (hv.member hm)).2
    refine ⟨fun n => read_obj_eq_ok_iff hms, fun token n => readOperator_eq_ok_iff hv ?_⟩
    rintro _ ⟨⟩

/-- The reader accepts exactly the expressions of the grammar, with their trees. -/
theorem read_eq_ok_iff {v : Json} (hv : v.Distinct) {n : Node} :
    read v = .ok n ↔ Grammar.Expression v n :=
  (read_and_readOperator_eq_ok_iff hv).1 n

end Expression

namespace Step

theorem readDepth_eq_ok_iff {m : StepModifier} {v : Json} {n : Int32} :
    readDepth m v = .ok n ↔ v.int? = some n.toInt := by
  rw [← Json.int32?_eq_some_iff]
  unfold readDepth
  cases v.int32? with
  | none => simp
  | some n => simp

/-- The depth of a step depends on its modifiers alone. -/
theorem readModifiers_congr {index : Nat} {ms ns : List (String × Json)}
    (h : ∀ key ∈ modifiers, ms.lookup key = ns.lookup key) :
    readModifiers index ms = readModifiers index ns := by
  have hd : ms.lookup StepModifier.depth.token = ns.lookup StepModifier.depth.token :=
    h _ (by decide)
  have he : ms.lookup StepModifier.exactDepth.token = ns.lookup StepModifier.exactDepth.token :=
    h _ (by decide)
  rw [readModifiers, readModifiers, hd, he]

/-- The depth of a step by the look-ups of its modifiers. -/
theorem depthOf_iff {ms : List (String × Json)} (hms : (ms.map Prod.fst).Nodup) {depth : Depth} :
    DepthOf ms depth ↔
      (ms.lookup "$depth" = none ∧ ms.lookup "$exactdepth" = none ∧ depth = .relative 1) ∨
      (∃ v hops, ms.lookup "$depth" = some v ∧ ms.lookup "$exactdepth" = none ∧
        v.int? = some hops.toInt ∧ hops.toInt ≠ 0 ∧ depth = .relative hops) ∨
      (∃ v distance, ms.lookup "$exactdepth" = some v ∧ ms.lookup "$depth" = none ∧
        v.int? = some distance.toInt ∧ 0 ≤ distance.toInt ∧ depth = .exact distance) := by
  simp only [Json.lookup_eq_none_iff_notMem, Json.lookup_eq_some_iff_mem hms]
  constructor
  · rintro (⟨hd, he⟩ | ⟨hv, he, hn, h0⟩ | ⟨hv, hd, hn, h0⟩)
    · exact .inl ⟨hd, he, rfl⟩
    · exact .inr (.inl ⟨_, _, hv, he, hn, h0, rfl⟩)
    · exact .inr (.inr ⟨_, _, hv, hd, hn, h0, rfl⟩)
  · rintro (⟨hd, he, rfl⟩ | ⟨v, hops, hv, he, hn, h0, rfl⟩ | ⟨v, distance, hv, hd, hn, h0, rfl⟩)
    · exact .default hd he
    · exact .relative hv he hn h0
    · exact .exact hv hd hn h0

theorem readModifiers_eq_ok_iff {index : Nat} {ms : List (String × Json)}
    (hms : (ms.map Prod.fst).Nodup) {depth : Depth} :
    readModifiers index ms = .ok depth ↔ DepthOf ms depth := by
  rw [depthOf_iff hms]
  unfold readModifiers
  simp only [StepModifier.token]
  cases hd : ms.lookup "$depth" with
  | none =>
    cases he : ms.lookup "$exactdepth" with
    | none => simp [Depth.default, Depth.check_relative_eq_ok_iff, @eq_comm _ depth]
    | some w => simp [readDepth_eq_ok_iff, Depth.check_exact_eq_ok_iff, @eq_comm _ depth]
  | some v =>
    cases he : ms.lookup "$exactdepth" with
    | none => simp [readDepth_eq_ok_iff, Depth.check_relative_eq_ok_iff, @eq_comm _ depth]
    | some w => simp

theorem filter_isModifier (ms : List (String × Json)) :
    ms.filter (!Expression.isModifier ·.1) = ms.filter (·.1 ∉ modifiers) := by
  refine List.filter_congr fun m _ => ?_
  rw [Bool.eq_iff_iff]
  simp [← Expression.isModifier_iff]

/-- A step is read as its depth and the conjunction of its operators. -/
theorem read_obj (index : Nat) (ms : List (String × Json)) :
    read index (.obj ms) = do
      let depth ← readModifiers index ms
      if ms.filter (·.1 ∉ modifiers) = [] then malformed (.stepEmpty index)
      let node ← Expression.readOperators (ms.filter (·.1 ∉ modifiers)) >>=
        Expression.conjunction
      return { node, depth } := by
  simp only [read, filter_isModifier, List.isEmpty_iff, bind_assoc]

/-- The reader accepts exactly the steps of the grammar, with their trees and depths. -/
theorem read_eq_ok_iff {index : Nat} {v : Json} (hv : v.Distinct) {s : Step} :
    read index v = .ok s ↔ StepOf v s := by
  unfold read
  split
  case h_1 ms =>
    have hns : ∀ m ∈ ms.filter (·.1 ∉ modifiers), ∀ token n,
        Expression.readOperator token m.2 = .ok n ↔ Application token m.2 n := fun m hm =>
      (Expression.read_and_readOperator_eq_ok_iff (hv.member (List.mem_of_mem_filter hm))).2
    rw [filter_isModifier]
    simp only [Checked.malformed_bind, Checked.guard_eq_ok, Checked.bind_eq_ok, Checked.pure_eq_ok,
      Expression.readOperators_eq_ok_iff hns, Expression.conjunction_eq_ok_iff,
      readModifiers_eq_ok_iff hv.nodup]
    constructor
    · intro hyp
      rcases hyp with ⟨depth, hdepth, -, ns, hns, n, hn, rfl⟩
      exact .intro hdepth hns hn
    · intro hyp
      rcases hyp with ⟨hdepth, hns, hn⟩
      refine ⟨_, hdepth, ?_, _, hns, _, hn, rfl⟩
      intro hempty
      rw [List.isEmpty_iff.mp hempty] at hns
      cases hns
      cases hn
  case h_2 h =>
    apply iff_of_false Checked.malformed_ne_ok
    intro hyp
    cases hyp
    exact h _ rfl

end Step
end ArchivalQuery
