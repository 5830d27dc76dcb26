import ArchivalQuery.Proofs.Node.Reading

/-! # What readers of expressions refuse

A refusal names a token, a field or a step that stands in the value at fault.  A reader is a sequence
of readers of parts, so that each refuses only for what its part of the value names.
-/
namespace ArchivalQuery
open Checked (RefusesOnly)
open Grammar (modifiers connectives operatorTokens mem_operatorTokens_iff)

def Json.HasKey (v : Json) (key : String) : Prop := ∃ ms, v = obj ms ∧ key ∈ ms.map Prod.fst

namespace Expression

/-- Whether an object of operators stands in an expression: as itself, or joined by connectives. -/
inductive Inner : Json → List (String × Json) → Prop
  | self (ms : List (String × Json)) : Inner (.obj ms) ms
  | joined {ms ns : List (String × Json)} {token : String} {vs : List Json} {v : Json}
      (htoken : token ∈ connectives) (hm : (token, .arr vs) ∈ ms) (hv : v ∈ vs) (h : Inner v ns) :
      Inner (.obj ms) ns

/-- Whether a key stands where an operator is expected. -/
def HasToken (v : Json) (token : String) : Prop :=
  ∃ ms, Inner v ms ∧ token ∈ ms.map Prod.fst ∧ token ∉ modifiers

/-- Whether an operand names a field: as a whole, by a key, or among the fields in which documents
are similar. -/
def OperandNames (op : Operator) (v : Json) (field : String) : Prop :=
  match op with
  | .present | .missing | .isNull => v = .str field
  | .moreLike => ∃ ms names, v = .obj ms ∧ ("$fields", .ofStrings names) ∈ ms ∧ field ∈ names
  | .and | .or | .not | .path => False
  | _ => v.HasKey field

def HasField (v : Json) (field : String) : Prop :=
  ∃ ms, Inner v ms ∧ ∃ token op w, (token, op) ∈ operatorTokens ∧ (token, w) ∈ ms ∧
    OperandNames op w field

end Expression

/-- Where the parts of a refusal may come from. -/
structure QueryError.Origin where
  token : String → Prop
  field : String → Prop
  step : Nat → Prop

namespace QueryError.Origin

/-- Whether a refusal comes from a place: what it names is there, it looks like what it is refused
as, and it is none of those that are known. -/
def Admits (o : Origin) : QueryError → Prop
  | malformed _ => True
  | unknownOperator token =>
    o.token token ∧ token.toList.head? = some '$' ∧ token ∉ operatorTokens.map Prod.fst
  | unknownField name =>
    o.field name ∧ name.toList.head? = some '#' ∧ name ≠ "#all" ∧ name ∉ Field.reservedNames
  | depthConflict index => o.step index
  | tooLarge _ | unsupported _ => False

/-- Whether the names of an expression are among the origins. -/
structure Covers (o : Origin) (v : Json) : Prop where
  token (t : String) : Expression.HasToken v t → o.token t
  field (name : String) : Expression.HasField v name → o.field name

structure CoversOperand (o : Origin) (t : String) (v : Json) : Prop where
  token : o.token t
  field (op : Operator) :
    (t, op) ∈ operatorTokens → ∀ name, Expression.OperandNames op v name → o.field name
  inner (vs : List Json) : t ∈ connectives → v = .arr vs → ∀ w ∈ vs, o.Covers w

/-- The operators of a covered expression are covered. -/
theorem Covers.operand {o : Origin} {ms : List (String × Json)} (h : o.Covers (.obj ms))
    {m : String × Json} (hm : m ∈ ms) (hkey : m.1 ∉ modifiers) : o.CoversOperand m.1 m.2 where
  token := h.token m.1 ⟨ms, .self ms, List.mem_map.mpr ⟨m, hm, rfl⟩, hkey⟩
  field op hop name hname := h.field name ⟨ms, .self ms, m.1, op, m.2, hop, hm, hname⟩
  inner vs hconnective hvs w hw := by
    have hjoined : (m.1, .arr vs) ∈ ms := hvs ▸ hm
    constructor
    · rintro token ⟨ns, hinner, htoken⟩
      exact h.token token ⟨ns, .joined hconnective hjoined hw hinner, htoken⟩
    · rintro name ⟨ns, hinner, hname⟩
      exact h.field name ⟨ns, .joined hconnective hjoined hw hinner, hname⟩

end QueryError.Origin

section Readers
variable {o : QueryError.Origin}

theorem refuses_malformed {α : Type} (fault : Fault) :
    RefusesOnly o.Admits (malformed fault : Checked α) :=
  .malformed trivial

theorem Field.refuses_check {name : String} (h : o.field name) (place : FieldPlace) :
    RefusesOnly o.Admits (check place name) := by
  unfold check
  by_cases hash : name.toList.head? = some '#'
  · rw [if_pos hash]
    cases hf : ReservedField.ofToken? name with
    | none =>
      have hne (f : ReservedField) : name ≠ f.token := by
        rintro rfl
        rw [ReservedField.ofToken?_token] at hf
        cases hf
      refine .error ⟨h, hash, hne .all, fun hname => ?_⟩
      obtain ⟨f, hf, -⟩ := mem_reservedNames_iff.mp hname
      exact hne f hf
    | some f => exact .ite (.ok _) (refuses_malformed _)
  · rw [if_neg hash]
    exact .ite (.ok _) (refuses_malformed _)

namespace Build

theorem refuses_queryField {name : String} (h : o.field name) :
    RefusesOnly o.Admits (queryField name) :=
  (Field.refuses_check h _).bind fun _ => .pure _

theorem refuses_checkScalar (token : String) (v : Json) :
    RefusesOnly o.Admits (checkScalar token v) :=
  .ite (.ok _) (refuses_malformed _)

theorem refuses_comparison {name : String} (h : o.field name) (op : Comparison) (v : Json) :
    RefusesOnly o.Admits (comparison op name v) := by
  refine .bind ?_ fun _ => (refuses_queryField h).bind fun _ => .pure _
  unfold checkOperand
  split
  · exact .ite (.ok _) (refuses_malformed _)
  · exact refuses_checkScalar ..

theorem refuses_existence {name : String} (h : o.field name) (op : Existence) :
    RefusesOnly o.Admits (existence op name) :=
  (refuses_queryField h).bind fun _ => .pure _

theorem refuses_containment {name : String} (h : o.field name) (op : Containment)
    (vs : List Json) : RefusesOnly o.Admits (containment op name vs) :=
  .ite (refuses_malformed _) <|
    (RefusesOnly.forM fun v _ => refuses_checkScalar _ v).bind fun _ =>
      (refuses_queryField h).bind fun _ => .pure _

theorem refuses_range {name : String} (h : o.field name) (b : Bounds) :
    RefusesOnly o.Admits (range name b) :=
  .ite (refuses_malformed _) <| .ite (refuses_malformed _) <| .ite (refuses_malformed _) <|
    (RefusesOnly.forM fun _ _ => refuses_checkScalar ..).bind fun _ =>
      (refuses_queryField h).bind fun _ => .pure _

theorem refuses_wildcard {name : String} (h : o.field name) (pattern : String) :
    RefusesOnly o.Admits (wildcard name pattern) :=
  (refuses_queryField h).bind fun _ => .pure _

theorem refuses_regex {name : String} (h : o.field name) (pattern : String) :
    RefusesOnly o.Admits (regex name pattern) :=
  (refuses_queryField h).bind fun _ => .pure _

theorem refuses_term {pairs : List (String × Json)} (h : ∀ p ∈ pairs, o.field p.1) :
    RefusesOnly o.Admits (term pairs) := by
  have pair : ∀ p ∈ pairs, RefusesOnly o.Admits (termPair p) := fun p hp =>
    (refuses_checkScalar ..).bind fun _ => (refuses_queryField (h p hp)).bind fun _ => .pure _
  exact (RefusesOnly.mapM pair).bind fun _ => .ite (refuses_malformed _) (.pure _)

theorem refuses_boolean (op : Connective) (ns : List Node) :
    RefusesOnly o.Admits (boolean op ns) :=
  .ite (refuses_malformed _) (.ok _)

theorem refuses_fullText {names : List String} (h : ∀ name ∈ names, o.field name) (op : FullText)
    (value : String) : RefusesOnly o.Admits (fullText op names value) :=
  .ite (refuses_malformed _) <|
    (RefusesOnly.mapM fun name hname => refuses_queryField (h name hname)).bind fun _ => .pure _

theorem refuses_path (ids : List String) : RefusesOnly o.Admits (path ids) :=
  .ite (refuses_malformed _) (.ok _)

end Build

namespace Expression

theorem refuses_asObject (op : Operator) (v : Json) : RefusesOnly o.Admits (asObject op v) := by
  cases v with
  | obj ms => exact .ok ms
  | _ => exact refuses_malformed _

theorem refuses_asArray (op : Operator) (v : Json) : RefusesOnly o.Admits (asArray op v) := by
  cases v with
  | arr vs => exact .ok vs
  | _ => exact refuses_malformed _

theorem refuses_asString (op : Operator) (v : Json) : RefusesOnly o.Admits (asString op v) := by
  cases v with
  | str s => exact .ok s
  | _ => exact refuses_malformed _

section Named
variable {v : Json} (h : ∀ name, v.HasKey name → o.field name)
include h

/-- What is built of an operand with one field is built of a field that the operand names. -/
theorem refuses_soleField_bind {op : Operator} {build : String × Json → Checked Node}
    (hbuild : ∀ p, o.field p.1 → RefusesOnly o.Admits (build p)) :
    RefusesOnly o.Admits (soleField op v >>= build) := by
  have hsole : RefusesOnly o.Admits (soleField op v) := by
    refine (refuses_asObject op v).bind fun ms => ?_
    match ms with
    | [p] => exact .pure p
    | [] | _ :: _ :: _ => exact refuses_malformed _
  refine hsole.bind_of_ok fun p hp => hbuild p (h p.1 ⟨[p], soleField_eq_ok_iff.mp hp, ?_⟩)
  exact List.mem_cons_self

theorem refuses_readRange : RefusesOnly o.Admits (readRange v) := by
  have bound (b : Bounds) (p : String × Json) : RefusesOnly o.Admits (readBound b p) := by
    unfold readBound
    split
    case h_5 => exact refuses_malformed _
    all_goals exact .ok _
  exact refuses_soleField_bind h fun p hp => (refuses_asObject ..).bind fun ms =>
    (RefusesOnly.foldlM (fun m _ b => bound b m) {}).bind fun b => Build.refuses_range hp b

theorem refuses_readTerm : RefusesOnly o.Admits (readTerm v) :=
  (refuses_asObject ..).bind_of_ok fun ms hms => Build.refuses_term fun p hp =>
    h p.1 ⟨ms, asObject_eq_ok_iff.mp hms, List.mem_map.mpr ⟨p, hp, rfl⟩⟩

end Named

theorem refuses_readMoreLike {v : Json} (h : ∀ name, OperandNames .moreLike v name → o.field name) :
    RefusesOnly o.Admits (readMoreLike v) := by
  have part (parts : Option (List String) × Option String) (p : String × Json) :
      RefusesOnly o.Admits (readMoreLikePart parts p) :=
    .ite ((refuses_asArray ..).bind fun vs =>
        (RefusesOnly.mapM fun v _ => refuses_asString _ v).bind fun _ => .pure _) <|
      .ite ((refuses_asString ..).bind fun _ => .pure _) (refuses_malformed _)
  refine (refuses_asObject ..).bind_of_ok fun ms hms =>
    (RefusesOnly.foldlM (fun m _ parts => part parts m) (none, none)).bind_of_ok
      fun parts hparts => ?_
  obtain rfl := asObject_eq_ok_iff.mp hms
  -- The names that are noted are those of some member, whichever is noted last.
  have hnames : ∀ names, parts.1 = some names → ∀ name ∈ names, o.field name := by
    refine Checked.invariant_of_foldlM_mem
      (P := fun parts => ∀ names, parts.1 = some names → ∀ name ∈ names, o.field name)
      (fun m hm parts parts' hold hnote => ?_) nofun hparts
    obtain ⟨hkey, names, hvalue, rfl⟩ | ⟨-, text, -, rfl⟩ := readMoreLikePart_eq_ok_iff.mp hnote
    · rintro _ ⟨⟩ name hname
      refine h name ⟨ms, names, rfl, ?_, hname⟩
      rw [← hkey, ← hvalue]
      exact hm
    · exact hold
  match parts, hnames with
  | (some names, some _), hnames => exact Build.refuses_fullText (hnames names rfl) ..
  | (none, _), _ | (some _, none), _ => exact refuses_malformed _

/-- The operand of an operator that joins no expressions. -/
theorem refuses_leaf {op : Operator} {readLeaf : Json → Checked Node}
    (hop : leafOrConnective op = .inr readLeaf) {v : Json}
    (h : ∀ name, OperandNames op v name → o.field name) :
    RefusesOnly o.Admits (readLeaf v) := by
  have existence (op : Existence) (h : ∀ name, v = .str name → o.field name) :
      RefusesOnly o.Admits (readExistence op v) :=
    (refuses_asString ..).bind_of_ok fun name hname =>
      Build.refuses_existence (h name (asString_eq_ok_iff.mp hname)) op
  cases op with
  | and | or | not => cases hop
  | present | missing | isNull => cases hop; exact existence _ h
  | within | notWithin =>
    cases hop
    exact refuses_soleField_bind h fun p hp => (refuses_asArray ..).bind fun vs =>
      Build.refuses_containment hp _ vs
  | size | gt | gte | lt | lte | eq | ne =>
    cases hop
    exact refuses_soleField_bind h fun p hp => Build.refuses_comparison hp _ p.2
  | wildcard =>
    cases hop
    exact refuses_soleField_bind h fun p hp => (refuses_asString ..).bind fun text =>
      Build.refuses_wildcard hp text
  | regex =>
    cases hop
    exact refuses_soleField_bind h fun p hp => (refuses_asString ..).bind fun text =>
      Build.refuses_regex hp text
  | range => cases hop; exact refuses_readRange h
  | term => cases hop; exact refuses_readTerm h
  | path =>
    cases hop
    exact (refuses_asArray ..).bind fun vs =>
      (RefusesOnly.mapM fun v _ => refuses_asString _ v).bind fun ids => Build.refuses_path ids
  | matching | leading | search =>
    cases hop
    exact refuses_soleField_bind h fun p hp => (refuses_asString ..).bind fun text =>
      Build.refuses_fullText (List.forall_mem_singleton.mpr hp) _ text
  | moreLike => cases hop; exact refuses_readMoreLike h

theorem refuses_operatorOf {token : String} (h : o.token token) :
    RefusesOnly o.Admits (operatorOf token) := by
  unfold operatorOf
  cases hop : Operator.ofToken? token with
  | some op => exact .ok op
  | none =>
    by_cases hdollar : token.toList.head? = some '$'
    · dsimp only
      rw [if_pos hdollar]
      refine .error ⟨h, hdollar, fun htoken => ?_⟩
      obtain ⟨⟨_, op⟩, hmem, rfl⟩ := List.mem_map.mp htoken
      rw [mem_operatorTokens_iff.mp hmem, Operator.ofToken?_token] at hop
      cases hop
    · dsimp only
      rw [if_neg hdollar]
      exact refuses_malformed _

theorem refuses_conjunction (ns : List Node) : RefusesOnly o.Admits (conjunction ns) := by
  match ns with
  | [n] => exact .ok n
  | [] | _ :: _ :: _ => exact Build.refuses_boolean ..

theorem refuses_checkKeys (ms : List (String × Json)) : RefusesOnly o.Admits (checkKeys ms) := by
  refine .ite (refuses_malformed _) ?_
  split
  · exact refuses_malformed _
  · exact .ok _

mutual
theorem refuses_read : (v : Json) → o.Covers v → RefusesOnly o.Admits (read v)
  | .obj ms, h =>
    (refuses_checkKeys ms).bind_of_ok fun _ hkeys =>
      (refuses_readOperators ms fun m hm => h.operand hm ((checkKeys_eq_ok_iff.mp hkeys).2 m hm)).bind
        refuses_conjunction
  | .null, _ | .bool _, _ | .num _, _ | .str _, _ | .arr _, _ => refuses_malformed _
theorem refuses_readOperators : (ms : List (String × Json)) →
    (∀ m ∈ ms, o.CoversOperand m.1 m.2) → RefusesOnly o.Admits (readOperators ms)
  | [], _ => .ok []
  | (token, v) :: ms, h =>
    (refuses_readOperator token v (h _ List.mem_cons_self)).bind fun _ =>
      (refuses_readOperators ms fun m hm => h m (List.mem_cons_of_mem _ hm)).bind fun _ => .pure _
theorem refuses_readOperator (token : String) : (v : Json) → o.CoversOperand token v →
    RefusesOnly o.Admits (readOperator token v)
  | .arr vs, h => by
    refine (refuses_operatorOf h.token).bind_of_ok fun op hop => ?_
    have htoken := operatorOf_eq_ok_iff.mp hop
    split
    · exact refuses_leaf ‹_› (h.field op (mem_operatorTokens_iff.mpr htoken))
    · rename_i c hc
      rw [leafOrConnective_eq_inl_iff.mp hc] at htoken
      have hconnective := mem_connectives_iff.mpr ⟨c, htoken⟩
      exact (refuses_readChildren vs (h.inner vs hconnective rfl)).bind fun _ =>
        Build.refuses_boolean ..
  | .null, h | .bool _, h | .num _, h | .str _, h | .obj _, h => by
    refine (refuses_operatorOf h.token).bind_of_ok fun op hop => ?_
    split
    · exact refuses_leaf ‹_› (h.field op (mem_operatorTokens_iff.mpr (operatorOf_eq_ok_iff.mp hop)))
    · exact refuses_malformed _
theorem refuses_readChildren : (vs : List Json) → (∀ v ∈ vs, o.Covers v) →
    RefusesOnly o.Admits (readChildren vs)
  | [], _ => .ok []
  | v :: vs, h =>
    (refuses_read v (h v List.mem_cons_self)).bind fun _ =>
      (refuses_readChildren vs fun w hw => h w (List.mem_cons_of_mem _ hw)).bind fun _ => .pure _
end

end Expression

namespace Step

/-- Whether a step sets both depths, to whatever values. -/
def Conflicted (v : Json) : Prop :=
  v.HasKey "$depth" ∧ v.HasKey "$exactdepth"

theorem refuses_readModifiers {index : Nat} {ms : List (String × Json)}
    (h : Conflicted (.obj ms) → o.step index) :
    RefusesOnly o.Admits (readModifiers index ms) := by
  have depth (m : StepModifier) (v : Json) : RefusesOnly o.Admits (readDepth m v) := by
    unfold readDepth
    split
    · exact .ok _
    · exact refuses_malformed _
  have check (d : Depth) : RefusesOnly o.Admits d.check := by
    cases d <;> exact .ite (refuses_malformed _) (.ok _)
  have checked {x : Checked Depth} (hx : RefusesOnly o.Admits x) :
      RefusesOnly o.Admits (do let d ← x; d.check; return d) :=
    hx.bind fun d => (check d).bind fun _ => .pure _
  have key {k : String} {v : Json} (hv : ms.lookup k = some v) : (Json.obj ms).HasKey k :=
    ⟨ms, rfl, List.mem_map.mpr ⟨(k, v), Json.mem_of_lookup hv, rfl⟩⟩
  unfold readModifiers
  split
  · exact checked (.error (h ⟨key ‹_›, key ‹_›⟩))
  · exact checked (depth ..).map
  · exact checked (depth ..).map
  · exact checked (.ok _)

theorem refuses_read {index : Nat} {v : Json} (hv : o.Covers v) (h : Conflicted v → o.step index) :
    RefusesOnly o.Admits (read index v) := by
  cases v with
  | obj ms =>
    have hoperands : ∀ m ∈ ms.filter (!Expression.isModifier ·.1), o.CoversOperand m.1 m.2 := by
      intro m hm
      rw [filter_isModifier, List.mem_filter] at hm
      exact hv.operand hm.1 (of_decide_eq_true hm.2)
    exact (refuses_readModifiers h).bind fun _ => .ite (refuses_malformed _) <|
      (Expression.refuses_readOperators _ hoperands).bind fun _ =>
        (Expression.refuses_conjunction _).bind fun _ => .pure _
  | _ => exact refuses_malformed _

end Step
end Readers

/-- Two depths are refused before anything else about a step, and nothing else is refused as such. -/
theorem Step.read_eq_depthConflict_iff {index i : Nat} {v : Json} :
    read index v = .error (.depthConflict i) ↔ i = index ∧ Conflicted v := by
  constructor
  · intro h
    let o : QueryError.Origin := ⟨fun _ => True, fun _ => True, fun i => i = index ∧ Conflicted v⟩
    have hcovers : o.Covers v := ⟨fun _ _ => trivial, fun _ _ => trivial⟩
    exact (refuses_read hcovers fun hv => ⟨rfl, hv⟩).reason _ h
  · rintro ⟨rfl, ⟨ms, rfl, hdepth⟩, ns, hns, hexact⟩
    obtain rfl := Json.obj.inj hns
    have found {k : String} (hk : k ∈ ms.map Prod.fst) : ∃ v, ms.lookup k = some v :=
      Option.ne_none_iff_exists'.mp fun h => Json.lookup_eq_none_iff_notMem.mp h hk
    obtain ⟨v, hv⟩ := found hdepth
    obtain ⟨w, hw⟩ := found hexact
    have hmodifiers : readModifiers i ms = .error (.depthConflict i) := by
      unfold readModifiers
      simp only [StepModifier.token, hv, hw]
      rfl
    rw [read_obj, hmodifiers]
    rfl

end ArchivalQuery
