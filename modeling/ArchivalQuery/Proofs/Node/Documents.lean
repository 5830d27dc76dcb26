import ArchivalQuery.Proofs.Filter.Grammar
import ArchivalQuery.Proofs.Node.Filters
import ArchivalQuery.Proofs.Node.Subtrees

/-! # Filters of trees are documents

The filter of a writable tree is a filter document over the stored names of its fields and the
stored name of identifiers.
-/
namespace ArchivalQuery
open ArchivalQuery.Filter (Document)
open Json (single)

namespace Node

/-- The fields that the root of a tree tests. -/
def ownFields : Node → List String
  | comparison _ field _ => [field]
  | existence _ field => [field]
  | containment _ field _ => [field]
  | range field _ => [field]
  | textMatch _ pairs => pairs.map (·.field)
  | fullText _ fields _ => fields
  | boolean _ _ => []
  | path _ => []

def fields (n : Node) : List String := n.subtrees.flatMap ownFields

theorem ownFields_subset_fields (n : Node) : n.ownFields ⊆ n.fields :=
  fun _ h => List.mem_flatMap.mpr ⟨n, n.self_mem_subtrees, h⟩

theorem fields_subset_boolean {op : Connective} {cs : List Node} {c : Node} (hc : c ∈ cs) :
    c.fields ⊆ (boolean op cs).fields := by
  intro name hname
  rcases List.mem_flatMap.mp hname with ⟨m, hm, hname⟩
  refine List.mem_flatMap.mpr ⟨m, ?_, hname⟩
  rw [subtrees_boolean]
  exact List.mem_cons_of_mem _ (List.mem_flatMap.mpr ⟨c, hc, hm⟩)

section Documents
variable {a : Ancestry} {Key : String → Prop}

theorem document_comparison {op : Comparison} {key : String} {v : Json} (hkey : Key key)
    (hv : v.isScalar) : Document Key (comparisonFilter key op v) := by
  cases op with
  | eq => exact .value hkey hv
  | _ => exact .test hkey (by decide) (.scalar hv)

theorem document_existence {op : Existence} {key : String} (hkey : Key key) :
    Document Key (existenceFilter key op) := by
  cases op with
  | isNull => exact .test hkey (by decide) (.scalar (Json.isScalar_ofNat (by decide)))
  | _ => exact .test hkey (by decide) (.scalar rfl)

theorem document_range {key : String} {b : Bounds} (hkey : Key key) (hb : b.Proper) :
    Document Key (rangeFilter key b) := by
  have hmembers : b.members ≠ [] := by simpa [Bounds.members] using hb.nonempty
  refine .tests hkey hmembers b.nodup_members fun t ht => ?_
  rcases List.mem_map.mp ht with ⟨p, hp, rfl⟩
  have htests : ∀ op ∈ [Comparison.gt, .gte, .lt, .lte],
      op.operator.token ∈ Filter.testOperators := by decide
  exact ⟨htests p.1 (Bounds.op_of_mem_toList hp), .scalar (hb.scalar p hp)⟩

theorem document_term {pairs : List FieldValue} (hne : pairs ≠ [])
    (hpairs : ∀ p ∈ pairs, Key (Field.stored a p.field) ∧ p.value.isScalar) {f : Json}
    (h : textFilter a .term pairs = .ok f) : Document Key f := by
  have hdocument : ∀ g ∈ pairs.map fun p => single (Field.stored a p.field) p.value,
      Document Key g :=
    List.forall_mem_map.mpr fun p hp => .value (hpairs p hp).1 (hpairs p hp).2
  rcases textFilter_term h with hf | rfl
  · rw [hf, List.forall_mem_singleton] at hdocument
    exact hdocument
  · exact .and (by simpa using hne) hdocument

theorem document_pattern {key text : String} (hkey : Key key) :
    Document Key (single key (.obj [("$regex", .str text), ("$options", .str "")])) := by
  refine .tests hkey (List.cons_ne_nil _ _) (by simp) ?_
  have hregex : "$regex" ∈ Filter.testOperators := by decide
  have hoptions : "$options" ∈ Filter.testOperators := by decide
  exact List.forall_mem_cons.mpr ⟨⟨hregex, .scalar rfl⟩,
    List.forall_mem_singleton.mpr ⟨hoptions, .scalar rfl⟩⟩

theorem document_connect {op : Connective} {fs : List Json} (hne : fs ≠ [])
    (hfs : ∀ f ∈ fs, Document Key f) : Document Key (connect op fs) := by
  match op, fs with
  | .and, _ => exact .and hne hfs
  | .or, _ => exact .or hne hfs
  | .not, [f] => exact .nor (hfs f List.mem_cons_self)
  | .not, f :: f' :: fs => exact .nor (.and hne hfs)

/-- The filter of a writable tree is a document over the stored names of its fields. -/
theorem Writable.document {n : Node} (hn : n.Writable) (hid : Key a.id)
    (hfields : ∀ name ∈ n.fields, Key (Field.stored a name)) {f : Json}
    (h : n.filter a = .ok f) : Document Key f := by
  have hown {m : Node} (hm : ∀ name ∈ m.fields, Key (Field.stored a name)) :
      ∀ name ∈ m.ownFields, Key (Field.stored a name) :=
    fun name hname => hm name (m.ownFields_subset_fields hname)
  induction hn generalizing f with
  | @comparison op field v hf hv =>
    obtain rfl := Except.ok.inj h
    exact document_comparison (hown hfields field List.mem_cons_self) hv.isScalar
  | @existence op field hf =>
    obtain rfl := Except.ok.inj h
    exact document_existence (hown hfields field List.mem_cons_self)
  | @containment op field vs hf hne hvs =>
    obtain rfl := Except.ok.inj h
    have hop : op.operator.token ∈ Filter.testOperators := by cases op <;> decide
    exact .test (hown hfields field List.mem_cons_self) hop (.list hvs)
  | @range field b hf hb =>
    obtain rfl := Except.ok.inj h
    exact document_range (hown hfields field List.mem_cons_self) hb
  | @pattern op field text hop hf =>
    rw [filter, textFilter_pattern hop, Except.ok.injEq] at h
    subst h
    exact document_pattern (hown hfields field List.mem_cons_self)
  | @term pairs hne hpairs =>
    have hkeys : ∀ p ∈ pairs, Key (Field.stored a p.field) :=
      fun p hp => hown hfields p.field (List.mem_map_of_mem hp)
    exact document_term hne (fun p hp => ⟨hkeys p hp, (hpairs p hp).2⟩) h
  | @boolean op children hne hchildren ih =>
    rw [filter_boolean op hne, Checked.map_eq_ok] at h
    rcases h with ⟨fs, hfs, rfl⟩
    refine document_connect ?_ fun f hf => ?_
    · rintro rfl
      exact hne (List.forall₂_nil_right_iff.mp (Checked.mapM_eq_ok_iff.mp hfs))
    · rcases Checked.exists_of_mem_mapM hfs hf with ⟨c, hc, hcf⟩
      exact ih c hc (fun name hname => hfields name (fields_subset_boolean hc hname)) hcf
  | fullText => cases h
  | @path ids hne =>
    rw [filter] at h
    split at h
    · rename_i f' hf'
      obtain rfl := Except.ok.inj h
      exact Filter.document_of_memberOf? hid hf'
    · exact absurd h Checked.malformed_ne_ok

end Documents

/-- The fields of a writable tree are admitted in expressions. -/
theorem Writable.admitted {n : Node} (hn : n.Writable) {name : String} (h : name ∈ n.fields) :
    Field.Admitted .query name := by
  rcases List.mem_flatMap.mp h with ⟨m, hm, hname⟩
  cases hn.subtree hm with
  | comparison hf | existence hf | containment hf | range hf | pattern _ hf =>
    exact List.mem_singleton.mp hname ▸ hf
  | term _ hpairs =>
    rcases List.mem_map.mp hname with ⟨p, hp, rfl⟩
    exact (hpairs p hp).1
  | fullText _ hfields => exact hfields name hname
  | boolean | path => exact absurd hname List.not_mem_nil

end Node
end ArchivalQuery
