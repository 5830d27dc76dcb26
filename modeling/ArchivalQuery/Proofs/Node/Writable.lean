import ArchivalQuery.Proofs.Node.Reading

/-! # Trees that are read

What holds of the leaves that are read, and is kept where trees are joined, holds of every tree that
is read, together with the value it is read from.  So every such tree is writable, be the keys of
the objects distinct or not.
-/
namespace ArchivalQuery

namespace Expression

theorem readChildren_eq_mapM (vs : List Json) : readChildren vs = vs.mapM read := by
  induction vs with
  | nil => rfl
  | cons v vs ih => rw [readChildren, List.mapM_cons, ih]

theorem readOperators_eq_mapM (ms : List (String × Json)) :
    readOperators ms = ms.mapM fun m => readOperator m.1 m.2 := by
  induction ms with
  | nil => rfl
  | cons m ms ih => rw [readOperators, List.mapM_cons, ih]

theorem exists_of_mem_readChildren {vs : List Json} {ns : List Node}
    (h : readChildren vs = .ok ns) {n : Node} (hn : n ∈ ns) : ∃ v ∈ vs, read v = .ok n := by
  rw [readChildren_eq_mapM] at h
  exact Checked.exists_of_mem_mapM h hn

theorem exists_of_mem_readOperators {ms : List (String × Json)} {ns : List Node}
    (h : readOperators ms = .ok ns) {n : Node} (hn : n ∈ ns) :
    ∃ m ∈ ms, readOperator m.1 m.2 = .ok n := by
  rw [readOperators_eq_mapM] at h
  exact Checked.exists_of_mem_mapM h hn

/-- What holds of expressions with their trees, and of operands with theirs, because readers and
joins keep it. -/
structure Invariant (P Q : Json → Node → Prop) : Prop where
  leaf {op : Operator} {readLeaf : Json → Checked Node} {v : Json} {n : Node} :
    leafOrConnective op = .inr readLeaf → readLeaf v = .ok n → Q v n
  join (c : Connective) {vs : List Json} {ns : List Node} :
    ns ≠ [] → (∀ n ∈ ns, ∃ v ∈ vs, P v n) → Q (.arr vs) (.boolean c ns)
  object {ms : List (String × Json)} {ns : List Node} {n : Node} :
    (∀ m ∈ ns, ∃ p ∈ ms, Q p.2 m) → Grammar.Joined ns n → P (.obj ms) n

namespace Invariant
variable {P Q : Json → Node → Prop} (inv : Invariant P Q)
include inv

theorem of_readOperator {token : String} {v : Json} {n : Node}
    (hvs : ∀ vs, v = .arr vs → ∀ w ∈ vs, ∀ n, read w = .ok n → P w n)
    (h : readOperator token v = .ok n) : Q v n := by
  rw [readOperator] at h
  obtain ⟨op, -, h⟩ := Checked.bind_eq_ok.mp h
  split at h
  · exact inv.leaf ‹_› h
  · split at h
    · obtain ⟨ns, hns, h⟩ := Checked.bind_eq_ok.mp h
      obtain ⟨hne, rfl⟩ := Build.boolean_eq_ok_iff.mp h
      refine inv.join _ hne fun n hn => ?_
      obtain ⟨w, hw, hread⟩ := exists_of_mem_readChildren hns hn
      exact ⟨w, hw, hvs _ rfl w hw n hread⟩
    · exact absurd h Checked.malformed_ne_ok

/-- Expressions and operands are gone through at once: either may hold the other. -/
theorem read_and_readOperator (v : Json) : (∀ n, Expression.read v = .ok n → P v n) ∧
    ∀ token n, readOperator token v = .ok n → Q v n := by
  induction v using Json.induction with
  | leaf v harr hobj =>
    constructor
    · intro n h
      cases v <;> simp_all [Expression.read, Json.obj?]
    · refine fun token n => inv.of_readOperator ?_
      rintro vs rfl
      simp [Json.arr?] at harr
  | arr vs ih =>
    constructor
    · intro n h
      simp [Expression.read] at h
    · refine fun token n => inv.of_readOperator ?_
      rintro _ ⟨⟩ w hw
      exact (ih w hw).1
  | obj ms ih =>
    constructor
    · intro n h
      rw [Expression.read, Checked.bind_unit_eq_ok, Checked.bind_eq_ok] at h
      obtain ⟨-, ns, hns, hn⟩ := h
      refine inv.object (fun m hm => ?_) (conjunction_eq_ok_iff.mp hn)
      obtain ⟨p, hp, hread⟩ := exists_of_mem_readOperators hns hm
      exact ⟨p, hp, (ih p hp).2 p.1 m hread⟩
    · refine fun token n => inv.of_readOperator ?_
      rintro _ ⟨⟩

theorem read {v : Json} {n : Node} (h : Expression.read v = .ok n) : P v n :=
  (inv.read_and_readOperator v).1 n h

/-- The modifiers of a step are left out, so that it is read as an expression of fewer members. -/
theorem readStep {index : Nat} {v : Json} {s : Step} (h : Step.read index v = .ok s) :
    P v s.node := by
  unfold Step.read at h
  split at h
  · simp only [Checked.malformed_bind, Checked.guard_eq_ok, Checked.bind_eq_ok,
      Checked.pure_eq_ok] at h
    obtain ⟨depth, -, -, ns, hns, n, hn, rfl⟩ := h
    refine inv.object (fun m hm => ?_) (conjunction_eq_ok_iff.mp hn)
    obtain ⟨p, hp, hread⟩ := exists_of_mem_readOperators hns hm
    exact ⟨p, List.mem_of_mem_filter hp, (inv.read_and_readOperator p.2).2 p.1 m hread⟩
  · exact absurd h Checked.malformed_ne_ok

end Invariant

theorem readLeaf_writable {op : Operator} {readLeaf : Json → Checked Node} {v : Json} {n : Node}
    (hop : leafOrConnective op = .inr readLeaf) (h : readLeaf v = .ok n) : n.Writable := by
  cases op <;> simp only [leafOrConnective, Sum.inr.injEq, reduceCtorEq] at hop <;> subst hop
  case present | missing | isNull =>
    rcases readExistence_eq_ok_iff.mp h with ⟨name, -, hf, rfl⟩
    exact .existence hf
  case within | notWithin =>
    rcases readContainment_eq_ok_iff.mp h with ⟨name, ws, -, hf, hne, hws, rfl⟩
    exact .containment hf hne hws
  case size | gt | gte | lt | lte | eq | ne =>
    rcases readComparison_eq_ok_iff.mp h with ⟨name, w, -, hf, hw, rfl⟩
    exact .comparison hf hw
  case wildcard =>
    rcases readWildcard_eq_ok_iff.mp h with ⟨name, text, -, hf, rfl⟩
    exact .pattern (by decide) hf
  case regex =>
    rcases readRegex_eq_ok_iff.mp h with ⟨name, text, -, hf, rfl⟩
    exact .pattern (by decide) hf
  case range =>
    rcases Checked.bind_eq_ok.mp h with ⟨p, -, h⟩
    rcases Checked.bind_eq_ok.mp h with ⟨ms, -, h⟩
    rcases Checked.bind_eq_ok.mp h with ⟨b, -, h⟩
    rcases Build.range_eq_ok_iff.mp h with ⟨hb, hf, rfl⟩
    exact .range hf hb
  case term =>
    rcases readTerm_eq_ok_iff.mp h with ⟨ms, -, hne, hms, rfl⟩
    refine .term (by simpa using hne) fun p hp => ?_
    rcases List.mem_map.mp hp with ⟨m, hm, rfl⟩
    exact (hms m hm).symm
  case path =>
    rcases readPath_eq_ok_iff.mp h with ⟨ids, -, hne, rfl⟩
    exact .path hne
  case matching | leading | search =>
    rcases readFullText_eq_ok_iff.mp h with ⟨name, text, -, hf, rfl⟩
    exact .fullText (List.cons_ne_nil _ _) (List.forall_mem_singleton.mpr hf)
  case moreLike =>
    rcases Checked.bind_eq_ok.mp h with ⟨ms, -, h⟩
    rcases Checked.bind_eq_ok.mp h with ⟨parts, -, h⟩
    split at h
    · rcases Build.fullText_eq_ok_iff.mp h with ⟨hne, hf, rfl⟩
      exact .fullText hne hf
    · exact absurd h Checked.malformed_ne_ok

theorem writable_invariant : Invariant (fun _ n => n.Writable) (fun _ n => n.Writable) where
  leaf := readLeaf_writable
  join c vs ns hne hns := by
    refine .boolean hne fun n hn => ?_
    obtain ⟨-, -, h⟩ := hns n hn
    exact h
  object {ms ns n} hns hn := by
    have hall : ∀ m ∈ ns, m.Writable := by
      intro m hm
      obtain ⟨-, -, h⟩ := hns m hm
      exact h
    cases hn with
    | one => exact hall n List.mem_cons_self
    | several => exact .boolean (List.cons_ne_nil _ _) hall

/-- Every tree that is read from an expression is writable. -/
theorem read_writable {v : Json} {n : Node} (h : read v = .ok n) : n.Writable :=
  writable_invariant.read h

end Expression

/-- Every tree that is read from a step is writable. -/
theorem Step.read_writable {index : Nat} {v : Json} {s : Step} (h : read index v = .ok s) :
    s.node.Writable :=
  Expression.writable_invariant.readStep h

end ArchivalQuery
