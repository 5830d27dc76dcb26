import ArchivalQuery.Proofs.Node.Reading

/-! # Built trees

The trees that come out of the builders are those that come out of the readers: each built tree has
an expression that reads back as it, and every tree that is read could have been built.
-/
namespace ArchivalQuery
open Grammar

namespace Node

/-- The trees that builders make, one after the other, if no term is given a field twice.  A length
is given as a word, and only a search for similar documents is given more than one field. -/
inductive Built : Node → Prop
  | comparison {op : Comparison} {name : String} {v : Json} {n : Node} (hop : op ≠ .size)
      (h : Build.comparison op name v = .ok n) : Built n
  | size {name : String} {length : UInt64} {n : Node} (h : Build.size name length = .ok n) : Built n
  | existence {op : Existence} {name : String} {n : Node} (h : Build.existence op name = .ok n) :
      Built n
  | containment {op : Containment} {name : String} {vs : List Json} {n : Node}
      (h : Build.containment op name vs = .ok n) : Built n
  | range {name : String} {b : Bounds} {n : Node} (h : Build.range name b = .ok n) : Built n
  | wildcard {name text : String} {n : Node} (h : Build.wildcard name text = .ok n) : Built n
  | regex {name text : String} {n : Node} (h : Build.regex name text = .ok n) : Built n
  | term {pairs : List (String × Json)} {n : Node} (hpairs : (pairs.map Prod.fst).Nodup)
      (h : Build.term pairs = .ok n) : Built n
  | boolean {op : Connective} {children : List Node} {n : Node}
      (hchildren : ∀ c ∈ children, Built c) (h : Build.boolean op children = .ok n) : Built n
  | fullText {op : FullText} {name text : String} {n : Node} (hop : op ≠ .moreLike)
      (h : Build.fullText op [name] text = .ok n) : Built n
  | moreLike {names : List String} {text : String} {n : Node}
      (h : Build.fullText .moreLike names text = .ok n) : Built n
  | path {ids : List String} {n : Node} (h : Build.path ids = .ok n) : Built n

mutual
/-- What the operator of a tree is given in an expression. -/
def operand : Node → Json
  | comparison _ field v => .single field v
  | existence _ field => .str field
  | containment _ field vs => .single field (.arr vs)
  | range field b => .single field (.obj b.members)
  | textMatch _ pairs => .obj (pairs.map fun p => (p.field, p.value))
  | boolean _ cs => .arr (expressions cs)
  | fullText .moreLike fields text => .obj [("$fields", .ofStrings fields), ("$like", .str text)]
  | fullText _ fields text => .obj (fields.map fun f => (f, .str text))
  | path ids => .ofStrings ids
def expressions : List Node → List Json
  | [] => []
  | n :: ns => .single n.operator.token n.operand :: expressions ns
end

def expression (n : Node) : Json := .single n.operator.token n.operand

theorem expressions_eq_map (ns : List Node) : expressions ns = ns.map expression := by
  induction ns with
  | nil => rfl
  | cons n ns ih => rw [expressions, ih, List.map_cons, expression]

end Node

theorem Operator.token_notMem_modifiers (op : Operator) : op.token ∉ modifiers := by
  cases op <;> decide

theorem Bounds.boundsOf_members (b : Bounds) : BoundsOf b.members b := by
  constructor
  case keys =>
    intro m hm
    rcases List.mem_map.mp hm with ⟨p, hp, rfl⟩
    exact List.mem_map_of_mem (f := fun op : Comparison => op.operator.token) (op_of_mem_toList hp)
  all_goals
    rcases b with ⟨gt, gte, lt, lte⟩
    cases gt <;> cases gte <;> cases lt <;> cases lte <;> rfl

theorem Node.application_of_operand {n : Node} (h : Operand n.operator n.operand n) :
    Application n.operator.token n.operand n :=
  .operand (mem_operatorTokens_iff.mpr rfl) h

theorem Node.expression_of_application {n : Node}
    (h : Application n.operator.token n.operand n) : Grammar.Expression n.expression n :=
  .intro (List.cons_ne_nil _ _)
    (List.forall_mem_singleton.mpr n.operator.token_notMem_modifiers) (.cons h .nil) .one

theorem Node.expressions_of_forall {ns : List Node}
    (h : ∀ n ∈ ns, Grammar.Expression n.expression n) : Expressions (expressions ns) ns := by
  induction ns with
  | nil => exact .nil
  | cons n ns ih =>
    rw [List.forall_mem_cons] at h
    exact .cons h.1 (ih h.2)

namespace Node.Built
variable {n : Node}

/-- A built tree and its operand make an application of the grammar. -/
theorem application (hn : n.Built) : Application n.operator.token n.operand n := by
  induction hn with
  | @comparison op name v n hop h =>
    rcases Build.comparison_eq_ok_iff.mp h with ⟨hv, hf, rfl⟩
    apply application_of_operand
    cases op <;> exact ⟨name, v, rfl, hf, hv, rfl⟩
  | @size name length n h =>
    rcases Build.comparison_eq_ok_iff.mp h with ⟨hv, hf, rfl⟩
    exact application_of_operand ⟨name, _, rfl, hf, hv, rfl⟩
  | @existence op name n h =>
    rcases Build.existence_eq_ok_iff.mp h with ⟨hf, rfl⟩
    apply application_of_operand
    cases op <;> exact ⟨name, rfl, hf, rfl⟩
  | @containment op name vs n h =>
    rcases Build.containment_eq_ok_iff.mp h with ⟨hne, hvs, hf, rfl⟩
    apply application_of_operand
    cases op <;> exact ⟨name, vs, rfl, hf, hne, hvs, rfl⟩
  | @range name b n h =>
    rcases Build.range_eq_ok_iff.mp h with ⟨hb, hf, rfl⟩
    exact application_of_operand ⟨name, _, b, rfl, hf, b.boundsOf_members, hb, rfl⟩
  | @wildcard name text n h =>
    rcases Build.wildcard_eq_ok_iff.mp h with ⟨hf, rfl⟩
    exact application_of_operand ⟨name, text, rfl, hf, rfl⟩
  | @regex name text n h =>
    rcases Build.regex_eq_ok_iff.mp h with ⟨hf, rfl⟩
    exact application_of_operand ⟨name, text, rfl, hf, rfl⟩
  | @term pairs n hpairs h =>
    rcases Build.term_eq_ok_iff.mp h with ⟨hne, hps, rfl⟩
    exact application_of_operand ⟨pairs, by simp [operand, Function.comp_def], hne, hps, rfl⟩
  | @boolean op children n hchildren h ih =>
    rcases Build.boolean_eq_ok_iff.mp h with ⟨hne, rfl⟩
    have hexpressions := expressions_of_forall fun c hc => expression_of_application (ih c hc)
    refine .connective (mem_connectiveTokens_iff.mpr rfl) ?_ hexpressions
    exact (Expression.ne_nil_iff_of_expressions hexpressions).mp hne
  | @fullText op name text n hop h =>
    rcases Build.fullText_eq_ok_iff.mp h with ⟨-, hf, rfl⟩
    rw [List.forall_mem_singleton] at hf
    apply application_of_operand
    cases op
    case moreLike => exact absurd rfl hop
    all_goals exact ⟨name, text, rfl, hf, rfl⟩
  | @moreLike names text n h =>
    rcases Build.fullText_eq_ok_iff.mp h with ⟨hne, hf, rfl⟩
    exact application_of_operand ⟨_, names, text, rfl, .rfl, hne, hf, rfl⟩
  | @path ids n h =>
    rcases Build.path_eq_ok_iff.mp h with ⟨hne, rfl⟩
    exact application_of_operand ⟨ids, rfl, hne, rfl⟩

/-- No object in the operand of a built tree repeats a key. -/
theorem distinct_operand (hn : n.Built) : n.operand.Distinct := by
  induction hn with
  | @comparison op name v n hop h =>
    rcases Build.comparison_eq_ok_iff.mp h with ⟨hv, -, rfl⟩
    exact Json.distinct_single_iff.mpr (Json.distinct_of_isScalar hv.isScalar)
  | @size name length n h =>
    rcases Build.comparison_eq_ok_iff.mp h with ⟨hv, -, rfl⟩
    exact Json.distinct_single_iff.mpr (Json.distinct_of_isScalar hv.isScalar)
  | @existence op name n h =>
    rcases Build.existence_eq_ok_iff.mp h with ⟨-, rfl⟩
    trivial
  | @containment op name vs n h =>
    rcases Build.containment_eq_ok_iff.mp h with ⟨-, hvs, -, rfl⟩
    rw [operand, Json.distinct_single_iff, Json.distinct_arr_iff]
    exact fun v hv => Json.distinct_of_isScalar (hvs v hv)
  | @range name b n h =>
    rcases Build.range_eq_ok_iff.mp h with ⟨hb, -, rfl⟩
    rw [operand, Json.distinct_single_iff, Json.distinct_obj_iff]
    refine ⟨b.nodup_members, fun m hm => ?_⟩
    rcases List.mem_map.mp hm with ⟨p, hp, rfl⟩
    exact Json.distinct_of_isScalar (hb.scalar p hp)
  | @wildcard name text n h =>
    rcases Build.wildcard_eq_ok_iff.mp h with ⟨-, rfl⟩
    exact Json.distinct_single_iff.mpr trivial
  | @regex name text n h =>
    rcases Build.regex_eq_ok_iff.mp h with ⟨-, rfl⟩
    exact Json.distinct_single_iff.mpr trivial
  | @term pairs n hpairs h =>
    rcases Build.term_eq_ok_iff.mp h with ⟨-, hps, rfl⟩
    have hmembers : (textMatch .term (pairs.map fun p => ⟨p.1, p.2⟩)).operand = .obj pairs := by
      simp [operand, Function.comp_def]
    rw [hmembers, Json.distinct_obj_iff]
    exact ⟨hpairs, fun p hp => Json.distinct_of_isScalar (hps p hp).1⟩
  | @boolean op children n hchildren h ih =>
    rcases Build.boolean_eq_ok_iff.mp h with ⟨-, rfl⟩
    rw [operand, expressions_eq_map, Json.distinct_arr_iff, List.forall_mem_map]
    exact fun c hc => Json.distinct_single_iff.mpr (ih c hc)
  | @fullText op name text n hop h =>
    rcases Build.fullText_eq_ok_iff.mp h with ⟨-, -, rfl⟩
    cases op
    case moreLike => exact absurd rfl hop
    all_goals exact Json.distinct_single_iff.mpr trivial
  | @moreLike names text n h =>
    rcases Build.fullText_eq_ok_iff.mp h with ⟨-, -, rfl⟩
    simp [operand, Json.distinct_obj_iff, Json.distinct_ofStrings, Json.Distinct]
  | @path ids n h =>
    rcases Build.path_eq_ok_iff.mp h with ⟨-, rfl⟩
    exact Json.distinct_ofStrings ids

theorem distinct_expression (hn : n.Built) : n.expression.Distinct :=
  Json.distinct_single_iff.mpr hn.distinct_operand

/-- The expression of a built tree reads back as the tree. -/
theorem read_expression (hn : n.Built) : Expression.read n.expression = .ok n :=
  (Expression.read_eq_ok_iff hn.distinct_expression).mpr (expression_of_application hn.application)

/-- As a step, it reads back with the depth of a step that names none. -/
theorem read_step_expression (hn : n.Built) (index : Nat) :
    Step.read index n.expression = .ok ⟨n, .relative 1⟩ := by
  have hkey : n.operator.token ∉ modifiers := n.operator.token_notMem_modifiers
  have hmodifier : ∀ key ∈ modifiers, key ∉ [(n.operator.token, n.operand)].map Prod.fst := by
    intro key hk hmem
    obtain rfl : key = n.operator.token := by simpa using hmem
    exact hkey hk
  have hmembers : [(n.operator.token, n.operand)].filter (·.1 ∉ modifiers) =
      [(n.operator.token, n.operand)] := by simp [hkey]
  rw [Step.read_eq_ok_iff hn.distinct_expression]
  refine .intro (.default (hmodifier _ (by decide)) (hmodifier _ (by decide))) ?_ .one
  rw [hmembers]
  exact .cons hn.application .nil

end Node.Built

namespace Grammar

theorem built_of_operand {op : Operator} {v : Json} {n : Node} (hv : v.Distinct)
    (h : Operand op v n) : n.Built := by
  cases op with
  | present | missing | isNull =>
    rcases h with ⟨name, -, hf, rfl⟩
    exact .existence (Build.existence_eq_ok_iff.mpr ⟨hf, rfl⟩)
  | within | notWithin =>
    rcases h with ⟨name, ws, -, hf, hne, hws, rfl⟩
    exact .containment (Build.containment_eq_ok_iff.mpr ⟨hne, hws, hf, rfl⟩)
  | size =>
    rcases h with ⟨name, w, -, hf, hw, rfl⟩
    rcases show ∃ k : Nat, w.int? = some (k : Int) from hw with ⟨k, hk⟩
    obtain rfl := Json.eq_ofUInt64_of_int? hk
    exact .size (Build.comparison_eq_ok_iff.mpr ⟨hw, hf, rfl⟩)
  | gt | gte | lt | lte | eq | ne =>
    rcases h with ⟨name, w, -, hf, hw, rfl⟩
    exact .comparison (by decide) (Build.comparison_eq_ok_iff.mpr ⟨hw, hf, rfl⟩)
  | wildcard =>
    rcases h with ⟨name, text, -, hf, rfl⟩
    exact .wildcard (Build.wildcard_eq_ok_iff.mpr ⟨hf, rfl⟩)
  | regex =>
    rcases h with ⟨name, text, -, hf, rfl⟩
    exact .regex (Build.regex_eq_ok_iff.mpr ⟨hf, rfl⟩)
  | range =>
    rcases h with ⟨name, ms, b, -, hf, -, hb, rfl⟩
    exact .range (Build.range_eq_ok_iff.mpr ⟨hb, hf, rfl⟩)
  | term =>
    rcases h with ⟨ms, rfl, hne, hms, rfl⟩
    exact .term hv.nodup (Build.term_eq_ok_iff.mpr ⟨hne, hms, rfl⟩)
  | path =>
    rcases h with ⟨ids, -, hne, rfl⟩
    exact .path (Build.path_eq_ok_iff.mpr ⟨hne, rfl⟩)
  | matching | leading | search =>
    rcases h with ⟨name, text, -, hf, rfl⟩
    exact .fullText (by decide) (Build.fullText_eq_ok_iff.mpr
      ⟨List.cons_ne_nil _ _, List.forall_mem_singleton.mpr hf, rfl⟩)
  | moreLike =>
    rcases h with ⟨ms, names, text, -, -, hne, hf, rfl⟩
    exact .moreLike (Build.fullText_eq_ok_iff.mpr ⟨hne, hf, rfl⟩)
  | and | or | not => exact h.elim

theorem Joined.built {ns : List Node} {n : Node} (h : Joined ns n) (hns : ∀ m ∈ ns, m.Built) :
    n.Built := by
  cases h with
  | one => exact hns n List.mem_cons_self
  | several => exact .boolean hns (Build.boolean_eq_ok_iff.mpr ⟨List.cons_ne_nil _ _, rfl⟩)

mutual
theorem Expression.built {v : Json} {n : Node} (hv : v.Distinct) : Expression v n → n.Built
  | .intro _ _ hns hn => hn.built (Operators.built (fun _ hm => hv.member hm) hns)
theorem Operators.built {ms : List (String × Json)} {ns : List Node}
    (hms : ∀ m ∈ ms, m.2.Distinct) : Operators ms ns → ∀ n ∈ ns, n.Built
  | .nil => by simp
  | .cons hn hns => by
    rw [List.forall_mem_cons] at hms
    exact List.forall_mem_cons.mpr ⟨Application.built hms.1 hn, Operators.built hms.2 hns⟩
theorem Application.built {token : String} {v : Json} {n : Node} (hv : v.Distinct) :
    Application token v n → n.Built
  | .operand _ h => built_of_operand hv h
  | .connective _ hne hns =>
    .boolean (Expressions.built (fun _ hx => hv.item hx) hns)
      (Build.boolean_eq_ok_iff.mpr
        ⟨(ArchivalQuery.Expression.ne_nil_iff_of_expressions hns).mpr hne, rfl⟩)
theorem Expressions.built {vs : List Json} {ns : List Node} (hvs : ∀ v ∈ vs, v.Distinct) :
    Expressions vs ns → ∀ n ∈ ns, n.Built
  | .nil => by simp
  | .cons hn hns => by
    rw [List.forall_mem_cons] at hvs
    exact List.forall_mem_cons.mpr ⟨Expression.built hvs.1 hn, Expressions.built hvs.2 hns⟩
end

theorem StepOf.built {v : Json} {s : Step} (hv : v.Distinct) (h : StepOf v s) : s.node.Built := by
  cases h with
  | intro _ hns hn =>
    exact hn.built (Operators.built (fun _ hm => hv.member (List.mem_of_mem_filter hm)) hns)

end Grammar

/-- A built tree is what its expression reads as, alone and as a step; and what is read from a value
whose objects repeat no key is a built tree. -/
theorem Node.built_trees_are_read :
    (∀ n : Node, n.Built → n.expression.Distinct ∧ Expression.read n.expression = .ok n ∧
      ∀ index, Step.read index n.expression = .ok ⟨n, .relative 1⟩) ∧
    ∀ v : Json, v.Distinct → (∀ n, Expression.read v = .ok n → n.Built) ∧
      ∀ index s, Step.read index v = .ok s → s.node.Built := by
  constructor
  · intro n hn
    exact ⟨hn.distinct_expression, hn.read_expression, hn.read_step_expression⟩
  · intro v hv
    constructor
    · intro n h
      exact ((Expression.read_eq_ok_iff hv).mp h).built hv
    · intro index s h
      exact ((Step.read_eq_ok_iff hv).mp h).built hv

/-- A negation over a length and a search, built as a tree and read from an implicit conjunction. -/
theorem Node.built_trees_are_read_negation :
    (Node.boolean .not [.comparison .size "Keyword" (.ofUInt64 2),
      .fullText .moreLike ["Title", "Text"] "charter"]).Built ∧
    Expression.read (.single "$not" (.arr [
        .single "$size" (.single "Keyword" (.ofUInt64 2)),
        .single "$mlt" (.obj [("$fields", .ofStrings ["Title", "Text"]),
          ("$like", .str "charter")])])) =
      .ok (.boolean .not [.comparison .size "Keyword" (.ofUInt64 2),
        .fullText .moreLike ["Title", "Text"] "charter"]) ∧
    (Json.obj [("$exists", .str "Title"), ("$term", .obj [("#id", .str "u1")])]).Distinct ∧
    (Node.boolean .and
      [.existence .present "Title", .textMatch .term [⟨"#id", .str "u1"⟩]]).Built := by
  have hbuilt : (Node.boolean .not [.comparison .size "Keyword" (.ofUInt64 2),
      .fullText .moreLike ["Title", "Text"] "charter"]).Built := by
    refine .boolean (List.forall_mem_cons.mpr ⟨?_, List.forall_mem_singleton.mpr ?_⟩) rfl
    · exact .size (show Build.size "Keyword" 2 = _ from rfl)
    · exact .moreLike (show Build.fullText .moreLike ["Title", "Text"] "charter" = _ from rfl)
  have hv :
      (Json.obj [("$exists", .str "Title"), ("$term", .obj [("#id", .str "u1")])]).Distinct := by
    simp [Json.Distinct, Json.MembersDistinct]
  exact ⟨hbuilt, (Node.built_trees_are_read.1 _ hbuilt).2.1, hv,
    (Node.built_trees_are_read.2 _ hv).1 _ rfl⟩

end ArchivalQuery
