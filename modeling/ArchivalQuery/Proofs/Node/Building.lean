import ArchivalQuery.Node.Build
import ArchivalQuery.Proofs.Field.Names
import ArchivalQuery.Proofs.Json.Integers

/-! # Trees that a request can write

A tree is writable if its fields are admitted in expressions, its operands have the shape of their
operators and no list in it is empty.  Each builder accepts exactly the arguments of a writable
tree.
-/
namespace ArchivalQuery

/-- The values that a field is compared with: naturals for lengths, scalars otherwise. -/
def Comparison.Takes (op : Comparison) (v : Json) : Prop :=
  if op = .size then ∃ n : Nat, v.int? = some (n : Int) else v.isScalar

theorem Comparison.Takes.isScalar {op : Comparison} {v : Json} (h : op.Takes v) : v.isScalar := by
  unfold Takes at h
  split at h
  · rcases h with ⟨n, hn⟩
    cases v <;> simp_all [Json.int?, Json.isScalar]
  · exact h

/-- Only the four comparisons of order bound a range. -/
theorem Bounds.op_of_mem_toList {b : Bounds} {p : Comparison × Json} (hp : p ∈ b.toList) :
    p.1 ∈ [.gt, .gte, .lt, .lte] := by
  rcases List.mem_filterMap.mp hp with ⟨q, hq, hqp⟩
  rcases Option.map_eq_some_iff.mp hqp with ⟨v, -, rfl⟩
  simp only [List.mem_cons, List.not_mem_nil, or_false] at hq ⊢
  rcases hq with rfl | rfl | rfl | rfl <;> simp

/-- The bounds of a range, each under the token of its comparison. -/
def Bounds.members (b : Bounds) : List (String × Json) :=
  b.toList.map fun p => (p.1.operator.token, p.2)

theorem Bounds.nodup_members (b : Bounds) : (b.members.map Prod.fst).Nodup := by
  rcases b with ⟨gt, gte, lt, lte⟩
  cases gt <;> cases gte <;> cases lt <;> cases lte <;>
    simp [members, toList, Comparison.operator, Operator.token]

/-- Bounds of a range: some scalars, at most one on each side. -/
structure Bounds.Proper (b : Bounds) : Prop where
  nonempty : b.toList ≠ []
  lower : b.gt = none ∨ b.gte = none
  upper : b.lt = none ∨ b.lte = none
  scalar : ∀ p ∈ b.toList, p.2.isScalar

/-- The trees that a request can write. -/
inductive Node.Writable : Node → Prop
  | comparison {op : Comparison} {field : String} {v : Json} (hf : Field.Admitted .query field)
      (hv : op.Takes v) : Writable (.comparison op field v)
  | existence {op : Existence} {field : String} (hf : Field.Admitted .query field) :
      Writable (.existence op field)
  | containment {op : Containment} {field : String} {vs : List Json}
      (hf : Field.Admitted .query field) (hne : vs ≠ []) (hvs : ∀ v ∈ vs, v.isScalar) :
      Writable (.containment op field vs)
  | range {field : String} {b : Bounds} (hf : Field.Admitted .query field) (hb : b.Proper) :
      Writable (.range field b)
  | pattern {op : TextMatch} {field text : String} (hop : op ≠ .term)
      (hf : Field.Admitted .query field) : Writable (.textMatch op [⟨field, .str text⟩])
  | term {pairs : List FieldValue} (hne : pairs ≠ [])
      (hpairs : ∀ p ∈ pairs, Field.Admitted .query p.field ∧ p.value.isScalar) :
      Writable (.textMatch .term pairs)
  | boolean {op : Connective} {children : List Node} (hne : children ≠ [])
      (hchildren : ∀ n ∈ children, Writable n) : Writable (.boolean op children)
  | fullText {op : FullText} {fields : List String} {text : String} (hne : fields ≠ [])
      (hfields : ∀ f ∈ fields, Field.Admitted .query f) : Writable (.fullText op fields text)
  | path {ids : List String} (hne : ids ≠ []) : Writable (.path ids)

namespace Build

theorem queryField_eq_ok_iff {name field : String} :
    queryField name = .ok field ↔ Field.Admitted .query name ∧ field = name := by
  unfold queryField
  rw [Checked.bind_unit_eq_ok, Field.check_eq_ok_iff, Checked.pure_eq_ok, eq_comm]

/-- A node over one field is built if the field is admitted. -/
theorem queryField_bind_eq_ok {α : Type} {f : String → α} {name : String} {a : α} :
    (queryField name >>= fun field => pure (f field)) = .ok a ↔
      Field.Admitted .query name ∧ a = f name := by
  simp only [Checked.bind_eq_ok, queryField_eq_ok_iff, Checked.pure_eq_ok]
  constructor
  · intro h
    rcases h with ⟨_, ⟨hf, rfl⟩, rfl⟩
    exact ⟨hf, rfl⟩
  · intro h
    rcases h with ⟨hf, rfl⟩
    exact ⟨name, ⟨hf, rfl⟩, rfl⟩

theorem mapM_queryField_eq_ok_iff {names fields : List String} :
    names.mapM queryField = .ok fields ↔
      (∀ f ∈ names, Field.Admitted .query f) ∧ fields = names := by
  refine (Checked.mapM_eq_ok_iff_map (g := id) fun _ _ => queryField_eq_ok_iff).trans ?_
  simp only [id_eq, List.map_id]

theorem checkScalar_eq_ok_iff {token : String} {v : Json} :
    checkScalar token v = .ok () ↔ v.isScalar := by
  simp [checkScalar]

theorem checkOperand_eq_ok_iff {op : Comparison} {v : Json} :
    checkOperand op v = .ok () ↔ op.Takes v := by
  unfold checkOperand Comparison.Takes
  rw [← Json.isSome_natural?_iff]
  cases op with
  | size => simp only [ite_true]; split <;> simp_all
  | _ => exact checkScalar_eq_ok_iff

theorem comparison_eq_ok_iff {op : Comparison} {name : String} {v : Json} {n : Node} :
    comparison op name v = .ok n ↔
      op.Takes v ∧ Field.Admitted .query name ∧ n = .comparison op name v := by
  unfold comparison
  rw [Checked.bind_unit_eq_ok, checkOperand_eq_ok_iff, queryField_bind_eq_ok]

theorem existence_eq_ok_iff {op : Existence} {name : String} {n : Node} :
    existence op name = .ok n ↔ Field.Admitted .query name ∧ n = .existence op name := by
  unfold existence
  rw [queryField_bind_eq_ok]

theorem containment_eq_ok_iff {op : Containment} {name : String} {vs : List Json} {n : Node} :
    containment op name vs = .ok n ↔ vs ≠ [] ∧ (∀ v ∈ vs, v.isScalar) ∧
      Field.Admitted .query name ∧ n = .containment op name vs := by
  unfold containment
  simp only [Checked.malformed_bind, Checked.guard_eq_ok, List.isEmpty_iff, List.forM_eq_forM,
    Checked.bind_unit_eq_ok, Checked.forM_eq_ok_iff, checkScalar_eq_ok_iff, queryField_bind_eq_ok,
    ne_eq]

theorem range_eq_ok_iff {name : String} {b : Bounds} {n : Node} :
    range name b = .ok n ↔ b.Proper ∧ Field.Admitted .query name ∧ n = .range name b := by
  unfold range
  simp only [Checked.malformed_bind, Checked.guard_eq_ok, List.isEmpty_iff, List.forM_eq_forM,
    Checked.bind_unit_eq_ok, Checked.forM_eq_ok_iff, checkScalar_eq_ok_iff, queryField_bind_eq_ok,
    Bool.and_eq_true, Option.isSome_iff_ne_none]
  constructor
  · intro hn
    rcases hn with ⟨hne, hl, hu, hs, h⟩
    exact ⟨⟨hne, by tauto, by tauto, hs⟩, h⟩
  · intro hn
    rcases hn with ⟨⟨hne, hl, hu, hs⟩, h⟩
    exact ⟨hne, by tauto, by tauto, hs, h⟩

theorem wildcard_eq_ok_iff {name text : String} {n : Node} :
    wildcard name text = .ok n ↔
      Field.Admitted .query name ∧ n = .textMatch .wildcard [⟨name, .str text⟩] := by
  unfold wildcard
  rw [queryField_bind_eq_ok]

theorem regex_eq_ok_iff {name text : String} {n : Node} :
    regex name text = .ok n ↔
      Field.Admitted .query name ∧ n = .textMatch .regex [⟨name, .str text⟩] := by
  unfold regex
  rw [queryField_bind_eq_ok]

theorem termPair_eq_ok_iff {p : String × Json} {q : FieldValue} :
    termPair p = .ok q ↔
      (p.2.isScalar ∧ Field.Admitted .query p.1) ∧ q = ⟨p.1, p.2⟩ := by
  unfold termPair
  rw [Checked.bind_unit_eq_ok, checkScalar_eq_ok_iff, queryField_bind_eq_ok, and_assoc]

theorem term_eq_ok_iff {ps : List (String × Json)} {n : Node} :
    term ps = .ok n ↔ ps ≠ [] ∧ (∀ p ∈ ps, p.2.isScalar ∧ Field.Admitted .query p.1) ∧
      n = .textMatch .term (ps.map fun p => ⟨p.1, p.2⟩) := by
  unfold term
  simp only [Checked.malformed_bind, Checked.guard_eq_ok, List.isEmpty_iff, Checked.bind_eq_ok,
    Checked.mapM_eq_ok_iff_map fun _ _ => termPair_eq_ok_iff, Checked.pure_eq_ok]
  constructor
  · intro h
    rcases h with ⟨_, ⟨hp, rfl⟩, hne, rfl⟩
    exact ⟨by simpa using hne, hp, rfl⟩
  · intro h
    rcases h with ⟨hne, hp, rfl⟩
    exact ⟨_, ⟨hp, rfl⟩, by simpa using hne, rfl⟩

theorem boolean_eq_ok_iff {op : Connective} {children : List Node} {n : Node} :
    boolean op children = .ok n ↔ children ≠ [] ∧ n = .boolean op children := by
  unfold boolean
  rw [Checked.guard_eq_ok, List.isEmpty_iff, Except.ok.injEq, @eq_comm Node]

theorem fullText_eq_ok_iff {op : FullText} {names : List String} {text : String} {n : Node} :
    fullText op names text = .ok n ↔ names ≠ [] ∧
      (∀ f ∈ names, Field.Admitted .query f) ∧ n = .fullText op names text := by
  unfold fullText
  simp only [Checked.malformed_bind, Checked.guard_eq_ok, List.isEmpty_iff, Checked.bind_eq_ok,
    mapM_queryField_eq_ok_iff, Checked.pure_eq_ok, ne_eq]
  constructor
  · intro h
    rcases h with ⟨hne, _, ⟨hf, rfl⟩, rfl⟩
    exact ⟨hne, hf, rfl⟩
  · intro h
    rcases h with ⟨hne, hf, rfl⟩
    exact ⟨hne, names, ⟨hf, rfl⟩, rfl⟩

theorem path_eq_ok_iff {ids : List String} {n : Node} :
    path ids = .ok n ↔ ids ≠ [] ∧ n = .path ids := by
  unfold path
  rw [Checked.guard_eq_ok, List.isEmpty_iff, Except.ok.injEq, @eq_comm Node]

end Build
end ArchivalQuery
