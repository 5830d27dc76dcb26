import ArchivalQuery.Node.Form
import ArchivalQuery.Proofs.Json.Records
import ArchivalQuery.Proofs.Node.Subtrees

/-! # Query trees that are read back

The form of a tree is read back as the tree if the values in it repeat no keys and no bound is null.
-/
namespace ArchivalQuery
open Json (record Draft Lossless)

/-- Whether an optional value is read back as it is; null would be read as absent. -/
def Json.Kept (o : Option Json) : Prop := ∀ v, o = some v → v.Distinct ∧ v ≠ .null

structure Bounds.Kept (b : Bounds) : Prop where
  gt : Json.Kept b.gt
  gte : Json.Kept b.gte
  lt : Json.Kept b.lt
  lte : Json.Kept b.lte

theorem Bounds.kept_iff {b : Bounds} :
    b.Kept ↔ ∀ p ∈ b.toList, p.2.Distinct ∧ p.2 ≠ .null := by
  constructor
  · intro hb p hp
    rcases List.mem_filterMap.mp hp with ⟨q, hq, hqp⟩
    rcases Option.map_eq_some_iff.mp hqp with ⟨v, hv, rfl⟩
    simp only [List.mem_cons, List.not_mem_nil, or_false] at hq
    rcases hq with rfl | rfl | rfl | rfl
    · exact hb.gt v hv
    · exact hb.gte v hv
    · exact hb.lt v hv
    · exact hb.lte v hv
  · intro h
    exact ⟨fun v hv => h (.gt, v) (by simp [toList, hv]),
      fun v hv => h (.gte, v) (by simp [toList, hv]),
      fun v hv => h (.lt, v) (by simp [toList, hv]),
      fun v hv => h (.lte, v) (by simp [toList, hv])⟩

inductive Node.Kept : Node → Prop
  | comparison {op : Comparison} {field : String} {v : Json} (hv : v.Distinct) :
      Kept (.comparison op field v)
  | existence {op : Existence} {field : String} : Kept (.existence op field)
  | containment {op : Containment} {field : String} {vs : List Json}
      (hvs : ∀ v ∈ vs, v.Distinct) : Kept (.containment op field vs)
  | range {field : String} {b : Bounds} (hb : b.Kept) : Kept (.range field b)
  | textMatch {op : TextMatch} {pairs : List FieldValue}
      (hpairs : ∀ p ∈ pairs, p.value.Distinct) : Kept (.textMatch op pairs)
  | boolean {op : Connective} {children : List Node} (hchildren : ∀ n ∈ children, Kept n) :
      Kept (.boolean op children)
  | fullText {op : FullText} {fields : List String} {text : String} :
      Kept (.fullText op fields text)
  | path {ids : List String} : Kept (.path ids)

theorem Depth.lossless (d : Depth) : Lossless Depth.toJson Depth.ofDraft? d := by
  cases d with
  | relative n =>
    refine ⟨Json.distinct_single_iff.mpr trivial, ?_⟩
    simp [toJson, ofDraft?, Json.single, Json.draft_obj, Draft.view?_ofInt32]
  | exact n =>
    refine ⟨Json.distinct_single_iff.mpr trivial, ?_⟩
    simp [toJson, ofDraft?, Json.single, Json.draft_obj, Draft.view?_ofInt32]

theorem Bounds.lossless {b : Bounds} (hb : b.Kept) : Lossless Bounds.toJson Bounds.ofDraft? b := by
  refine Json.lossless_of_record rfl (by simp) ?_ fun d hfields => ?_
  · simp only [List.forall_mem_cons]
    exact ⟨fun v hv => (hb.gt v hv).1, fun v hv => (hb.gte v hv).1, fun v hv => (hb.lt v hv).1,
      fun v hv => (hb.lte v hv).1, nofun⟩
  · simp only [List.map_cons, List.map_nil] at hfields
    simp [ofDraft?, hfields, Draft.optional?_value hb.gt, Draft.optional?_value hb.gte,
      Draft.optional?_value hb.lt, Draft.optional?_value hb.lte]

theorem FieldValue.lossless {p : FieldValue} (hp : p.value.Distinct) :
    Lossless FieldValue.toJson FieldValue.ofDraft? p := by
  refine Json.lossless_of_record rfl (by simp) (by simp [hp]) fun d hfields => ?_
  simp only [List.map_cons, List.map_nil, Option.map_some] at hfields
  simp [ofDraft?, hfields, hp.value?_draft]

namespace Node

section Forms
variable {kind : Kind} {fields : List (String × Json)}

theorem Kind.ofDraft?_label (kind : Kind) : ofDraft? (.str kind.label) = some kind := by
  cases kind <;> rfl

theorem draft_form (kind : Kind) (fields : List (String × Json)) : (form kind fields).draft =
    .obj (("kind", .str kind.label) :: fields.map fun f => (f.1, f.2.draft)) := by
  rw [form, Json.draft_obj, List.map_cons]
  rfl

theorem form_eq_record (kind : Kind) (fields : List (String × Json)) : form kind fields =
    record (("kind", some (.str kind.label)) :: fields.map fun f => (f.1, some f.2)) := by
  simp [form, record, List.filterMap_map]

theorem distinct_form (hnames : ("kind" :: fields.map Prod.fst).Nodup)
    (hvalues : ∀ f ∈ fields, f.2.Distinct) : (form kind fields).Distinct :=
  Json.distinct_obj_iff.mpr ⟨hnames, List.forall_mem_cons.mpr ⟨trivial, hvalues⟩⟩

theorem nodup_form (kind : Kind) (hnames : ("kind" :: fields.map Prod.fst).Nodup) :
    ((("kind", some (Json.str kind.label)) ::
      fields.map fun f => (f.1, some f.2)).map Prod.fst).Nodup := by
  simpa [List.map_map, Function.comp_def] using hnames

/-- The fields of a form by their names. -/
theorem fields?_form (kind : Kind) (hnames : ("kind" :: fields.map Prod.fst).Nodup) :
    (form kind fields).draft.fields? (fields.map Prod.fst) =
      some (fields.map fun f => some f.2.draft) := by
  have h := Json.fields?_record (nodup_form kind hnames) fun _ => List.mem_cons_of_mem _
  rwa [← form_eq_record, List.map_map, List.map_map] at h

theorem member?_form (hnames : ("kind" :: fields.map Prod.fst).Nodup) :
    Draft.member? "kind" (("kind", .str kind.label) :: fields.map fun f => (f.1, f.2.draft)) =
      some (some (.str kind.label)) := by
  refine Draft.member?_of_mem ?_ List.mem_cons_self
  simpa [List.map_map, Function.comp_def] using hnames

/-- A form is a variant of its kind. -/
theorem variant?_form (kind : Kind) (hnames : ("kind" :: fields.map Prod.fst).Nodup) :
    (form kind fields).draft.variant? "kind" = some (kind.label, (form kind fields).draft) := by
  rw [form_eq_record]
  exact Json.variant?_record (nodup_form kind hnames) List.mem_cons_self

/-- A leaf is read back from its form if it can be told from the fields. -/
theorem lossless_of_leaf? {n : Node} (hn : n.toJson = form kind fields) (hkind : kind ≠ .boolean)
    (hnames : ("kind" :: fields.map Prod.fst).Nodup) (hvalues : ∀ f ∈ fields, f.2.Distinct)
    (hread : ∀ d : Draft, d.fields? (fields.map Prod.fst) =
      some (fields.map fun f => some f.2.draft) → leaf? d kind = some n) :
    Lossless toJson inner? n := by
  refine ⟨hn ▸ distinct_form hnames hvalues, ?_⟩
  have hinner : inner? (form kind fields).draft = leaf? (form kind fields).draft kind := by
    rw [draft_form, inner?, member?_form hnames]
    simp [Kind.ofDraft?_label, hkind]
  rw [hn, hinner, hread _ (fields?_form kind hnames)]

end Forms

theorem allToJson_eq_map (ns : List Node) : allToJson ns = ns.map toJson := by
  induction ns with
  | nil => rfl
  | cons n ns ih => rw [allToJson, ih, List.map_cons]

theorem allInner?_eq (read : List Node) (ds : List Draft) :
    allInner? read ds = (ds.mapM inner?).map (read.reverse ++ ·) := by
  induction ds generalizing read with
  | nil => simp [allInner?]
  | cons d ds ih =>
    cases hd : inner? d with
    | none => simp [allInner?, hd]
    | some n =>
      cases hds : ds.mapM inner? <;> simp [allInner?, hd, hds, ih]

theorem Kept.lossless_leaf {n : Node} (hn : n.Kept) (hleaf : ∀ op cs, n ≠ .boolean op cs) :
    Lossless toJson inner? n := by
  cases hn with
  | boolean => exact absurd rfl (hleaf _ _)
  | @comparison op field v hv =>
    refine lossless_of_leaf? rfl (by decide) (by simp) (by simp [hv, labelOf]) fun d hd => ?_
    have hop : familyOf? Comparison.all Comparison.operator
        (labelOf Comparison.operator op).draft = some op := by
      cases op <;> rfl
    simp only [List.map_cons, List.map_nil] at hd
    simp [leaf?, hd, hop, hv.value?_draft]
  | @existence op field =>
    refine lossless_of_leaf? rfl (by decide) (by simp) (by simp [labelOf]) fun d hd => ?_
    have hop : familyOf? Existence.all Existence.operator
        (labelOf Existence.operator op).draft = some op := by
      cases op <;> rfl
    simp only [List.map_cons, List.map_nil] at hd
    simp [leaf?, hd, hop]
  | @containment op field vs hvs =>
    refine lossless_of_leaf? rfl (by decide) (by simp)
      (by simpa [labelOf, Json.distinct_arr_iff] using hvs) fun d hd => ?_
    have hop : familyOf? Containment.all Containment.operator
        (labelOf Containment.operator op).draft = some op := by
      cases op <;> rfl
    have hvalues := Draft.view?_draft (Json.distinct_arr_iff.mpr hvs) Json.arr?
    simp only [List.map_cons, List.map_nil] at hd
    simp [leaf?, hd, hop, hvalues, Json.arr?]
  | @range field b hb =>
    have hbounds := Bounds.lossless hb
    refine lossless_of_leaf? rfl (by decide) (by simp) (by simp [hbounds.distinct]) fun d hd => ?_
    simp only [List.map_cons, List.map_nil] at hd
    simp [leaf?, hd, hbounds.read_write]
  | @textMatch op pairs hpairs =>
    have hlist := Lossless.list fun p hp => FieldValue.lossless (hpairs p hp)
    refine lossless_of_leaf? rfl (by decide) (by simp) (by simp [labelOf, hlist.distinct])
      fun d hd => ?_
    have hop : familyOf? TextMatch.all TextMatch.operator
        (labelOf TextMatch.operator op).draft = some op := by
      cases op <;> rfl
    simp only [List.map_cons, List.map_nil] at hd
    simp [leaf?, hd, hop, hlist.read_write]
  | @fullText op fields text =>
    refine lossless_of_leaf? rfl (by decide) (by simp)
      (by simp [labelOf, Json.distinct_ofStrings]) fun d hd => ?_
    have hop : familyOf? FullText.all FullText.operator
        (labelOf FullText.operator op).draft = some op := by
      cases op <;> rfl
    simp only [List.map_cons, List.map_nil] at hd
    simp [leaf?, hd, hop, Draft.view?_ofStrings]
  | @path ids =>
    refine lossless_of_leaf? rfl (by decide) (by simp) (by simp [Json.distinct_ofStrings])
      fun d hd => ?_
    simp only [List.map_cons, List.map_nil] at hd
    simp [leaf?, hd, Draft.view?_ofStrings]

theorem lossless_boolean (op : Connective) {cs : List Node}
    (hcs : ∀ n ∈ cs, Lossless toJson inner? n) : Lossless toJson inner? (boolean op cs) := by
  have hform : (boolean op cs).toJson = form .boolean
      [("op", labelOf Connective.operator op), ("children", .arr (cs.map toJson))] := by
    rw [toJson, allToJson_eq_map]
  have hnames : ("kind" :: [("op", labelOf Connective.operator op),
      ("children", Json.arr (cs.map toJson))].map Prod.fst).Nodup := by
    simp
  constructor
  · rw [hform]
    refine distinct_form hnames ?_
    simpa [labelOf, Json.distinct_arr_iff] using fun n hn => (hcs n hn).distinct
  · have hop : familyOf? Connective.all Connective.operator
        (labelOf Connective.operator op).draft = some op := by
      cases op <;> rfl
    have hall : ((cs.map toJson).map Json.draft).mapM inner? = some cs := by
      rw [List.map_map]
      exact Json.mapM_map_eq_some fun n hn => (hcs n hn).read_write
    have hchildren : childrenOf? [("kind", .str Kind.boolean.label),
        ("op", (labelOf Connective.operator op).draft),
        ("children", (Json.arr (cs.map toJson)).draft)] = some cs := by
      rw [Json.draft_arr]
      simp only [childrenOf?, String.reduceEq, reduceIte, allInner?_eq, hall, Option.map_some,
        List.reverse_nil, List.nil_append]
    have hfields := fields?_form .boolean hnames
    rw [hform, draft_form, inner?, member?_form hnames]
    simp only [draft_form, List.map_cons, List.map_nil] at hfields ⊢
    simp [Kind.ofDraft?_label, hfields, hop, hchildren]

theorem Kept.lossless_inner {n : Node} (hn : n.Kept) : Lossless toJson inner? n := by
  induction n using induction with
  | leaf n h => exact hn.lossless_leaf h
  | join op cs ih =>
    cases hn with
    | boolean hchildren => exact lossless_boolean op fun c hc => ih c hc (hchildren c hc)

theorem exists_form (n : Node) : ∃ kind fields, n.toJson = form kind fields ∧
    ("kind" :: fields.map Prod.fst).Nodup := by
  cases n <;> exact ⟨_, _, rfl, by simp⟩

theorem Kept.lossless {n : Node} (hn : n.Kept) : Lossless toJson ofDraft? n := by
  have hinner := hn.lossless_inner
  refine ⟨hinner.distinct, ?_⟩
  rcases n.exists_form with ⟨kind, fields, hform, hnames⟩
  rw [ofDraft?, hform, variant?_form kind hnames, ← hform, hinner.read_write]
  rfl

end Node

theorem Step.lossless {s : Step} (hs : s.node.Kept) : Lossless Step.toJson Step.ofDraft? s := by
  refine Json.lossless_of_record rfl (by simp) ?_ fun d hfields => ?_
  · simp [hs.lossless.distinct, s.depth.lossless.distinct]
  · simp only [List.map_cons, List.map_nil, Option.map_some] at hfields
    simp [ofDraft?, hfields, hs.lossless.read_write, s.depth.lossless.read_write]

theorem Json.Draft.eq_null_of_value? {d : Draft} (h : d.value? = some .null) : d = .null := by
  cases d with
  | null => rfl
  | arr ds => simp [Draft.value?_arr] at h
  | obj ms => simp [Draft.value?_obj] at h
  | _ => cases h

/-- What is read is kept: a value that may be null is absent then. -/
theorem Json.kept_of_optional? {o : Option Draft} {v? : Option Json}
    (h : Draft.optional? Draft.value? o = some v?) : Json.Kept v? := by
  cases o with
  | none =>
    cases h
    exact nofun
  | some d =>
    by_cases hd : d = .null
    · subst hd
      cases h
      exact nofun
    · rw [Draft.optional?_some hd, Option.map_eq_some_iff] at h
      rcases h with ⟨v, hv, rfl⟩
      rintro _ ⟨⟩
      refine ⟨Draft.distinct_of_value? hv, ?_⟩
      rintro rfl
      exact hd (Draft.eq_null_of_value? hv)

theorem Bounds.kept_of_ofDraft? {d : Draft} {b : Bounds} (h : ofDraft? d = some b) : b.Kept := by
  rcases Option.bind_eq_some_iff.mp h with ⟨fs, -, h⟩
  split at h
  · simp only [Option.bind_eq_bind, Option.bind_eq_some_iff, Option.pure_def,
      Option.some.injEq] at h
    rcases h with ⟨gt, hgt, gte, hgte, lt, hlt, lte, hlte, rfl⟩
    exact ⟨Json.kept_of_optional? hgt, Json.kept_of_optional? hgte, Json.kept_of_optional? hlt,
      Json.kept_of_optional? hlte⟩
  · cases h

theorem FieldValue.distinct_of_ofDraft? {d : Draft} {p : FieldValue} (h : ofDraft? d = some p) :
    p.value.Distinct := by
  rcases Option.bind_eq_some_iff.mp h with ⟨fs, -, h⟩
  split at h
  · simp only [Option.bind_eq_bind, Option.bind_eq_some_iff, Option.pure_def,
      Option.some.injEq] at h
    rcases h with ⟨v, hv, rfl⟩
    exact Draft.distinct_of_value? hv
  · cases h

namespace Node

/-- A leaf of one kind is made of the fields that its kind has. -/
theorem kept_of_leaf? {d : Draft} {kind : Kind} {n : Node} (h : leaf? d kind = some n) :
    n.Kept := by
  cases kind
  case boolean => cases h
  all_goals
    rcases Option.bind_eq_some_iff.mp h with ⟨fs, -, hfs⟩
    split at hfs
    case h_2 => cases hfs
    simp only [Option.bind_eq_bind, Option.bind_eq_some_iff, Option.pure_def,
      Option.some.injEq] at hfs
  -- The kinds that are left come in their order.
  · rcases hfs with ⟨op, -, v, hv, rfl⟩
    exact .comparison (Draft.distinct_of_value? hv)
  · rcases hfs with ⟨op, -, rfl⟩
    exact .existence
  · rcases hfs with ⟨op, -, vs, hvs, rfl⟩
    exact .containment fun v hv => Draft.distinct_of_view?_arr? hvs hv
  · rcases hfs with ⟨b, hb, rfl⟩
    exact .range (Bounds.kept_of_ofDraft? hb)
  · rcases hfs with ⟨op, -, ps, hps, rfl⟩
    refine .textMatch fun p hp => ?_
    rcases Draft.exists_of_mem_list? hps hp with ⟨d, hd⟩
    exact FieldValue.distinct_of_ofDraft? hd
  · rcases hfs with ⟨op, -, fields, -, rfl⟩
    exact .fullText
  · rcases hfs with ⟨ids, -, rfl⟩
    exact .path

theorem exists_of_childrenOf? {ms : List (String × Draft)} {ns : List Node}
    (h : childrenOf? ms = some ns) :
    ∃ m ∈ ms, ∃ ds, m.2 = .arr ds ∧ allInner? [] ds = some ns := by
  induction ms with
  | nil => cases h
  | cons m ms ih =>
    rcases m with ⟨k, d⟩
    by_cases hk : k = "children"
    · cases d with
      | arr ds =>
        refine ⟨(k, .arr ds), List.mem_cons_self, ds, rfl, ?_⟩
        simpa [childrenOf?, hk] using h
      | _ => simp [childrenOf?, hk] at h
    · rw [childrenOf?.eq_def] at h
      simp only [hk, if_false] at h
      rcases ih h with ⟨m, hm, hds⟩
      exact ⟨m, List.mem_cons_of_mem _ hm, hds⟩

theorem kept_of_allInner? {ds : List Draft} (hds : ∀ d ∈ ds, ∀ n, inner? d = some n → n.Kept)
    {ns : List Node} (h : allInner? [] ds = some ns) : ∀ n ∈ ns, n.Kept := by
  rw [allInner?_eq, Option.map_eq_some_iff] at h
  rcases h with ⟨ns, hns, rfl⟩
  intro n hn
  rcases Json.exists_of_mem_mapM hns hn with ⟨d, hd, hdn⟩
  exact hds d hd n hdn

/-- Every tree that is read from a form inside another is kept, and so are those of a list. -/
theorem kept_of_inner?_and_allInner? (d : Draft) : (∀ n, inner? d = some n → n.Kept) ∧
    ∀ ds, d = .arr ds → ∀ ns, allInner? [] ds = some ns → ∀ n ∈ ns, n.Kept := by
  induction d using Draft.induction with
  | leaf d harr hobj =>
    constructor
    · intro n h
      cases d with
      | arr ds => exact absurd rfl (harr ds)
      | obj ms => exact absurd rfl (hobj ms)
      | _ => cases h
    · intro ds hd
      exact absurd hd (harr ds)
  | arr ds ih =>
    refine ⟨fun n h => ?_, ?_⟩
    · unfold inner? at h
      split at h
      · rename_i heq
        cases heq
      · rename_i tag op cs heq
        cases heq
        rcases Option.bind_eq_some_iff.mp h with ⟨kind, -, h⟩
        split at h
        · simp only [Option.bind_eq_bind, Option.bind_eq_some_iff, Option.pure_def,
            Option.some.injEq] at h
          rcases h with ⟨op, -, ns, hns, rfl⟩
          exact .boolean ((ih (.arr cs) (by simp)).2 cs rfl ns hns)
        · exact kept_of_leaf? h
      · rcases Option.bind_eq_some_iff.mp h with ⟨kind, -, h⟩
        exact kept_of_leaf? h
      · cases h
    · rintro _ ⟨⟩ ns
      exact kept_of_allInner? fun d hd => (ih d hd).1
  | obj ms ih =>
    refine ⟨fun n h => ?_, nofun⟩
    simp only [inner?, Option.bind_eq_bind, Option.bind_eq_some_iff] at h
    rcases h with ⟨tag?, -, tag, -, kind, -, h⟩
    split at h
    · rcases Option.bind_eq_some_iff.mp h with ⟨fs, -, h⟩
      split at h
      · simp only [Option.bind_eq_some_iff, Option.pure_def, Option.some.injEq] at h
        rcases h with ⟨op, -, ns, hns, rfl⟩
        rcases exists_of_childrenOf? hns with ⟨m, hm, ds, hds, hall⟩
        exact .boolean ((ih m hm).2 ds hds ns hall)
      · cases h
    · exact kept_of_leaf? h

theorem kept_of_ofDraft? {d : Draft} {n : Node} (h : ofDraft? d = some n) : n.Kept := by
  rcases Option.bind_eq_some_iff.mp h with ⟨p, -, h⟩
  exact (kept_of_inner?_and_allInner? d).1 n h

end Node

theorem Step.kept_of_ofDraft? {d : Draft} {s : Step} (h : ofDraft? d = some s) :
    s.node.Kept := by
  rcases Option.bind_eq_some_iff.mp h with ⟨fs, -, h⟩
  split at h
  all_goals simp only [Option.bind_eq_bind, Option.bind_eq_some_iff, Option.pure_def,
    Option.some.injEq, reduceCtorEq] at h
  · rcases h with ⟨n, hn, depth, -, rfl⟩
    exact Node.kept_of_ofDraft? hn
  · rcases h with ⟨n, hn, rfl⟩
    exact Node.kept_of_ofDraft? hn

theorem Node.Kept.subtree {n m : Node} (hn : n.Kept) (hm : m ∈ n.subtrees) : m.Kept := by
  induction n using induction with
  | leaf n h =>
    rw [subtrees_leaf h, List.mem_singleton] at hm
    rwa [hm]
  | join op cs ih =>
    rw [subtrees_boolean, List.mem_cons, List.mem_flatMap] at hm
    rcases hm with rfl | ⟨c, hc, hm⟩
    · exact hn
    · cases hn with
      | boolean hchildren => exact ih c hc (hchildren c hc) hm

theorem Json.ne_null_of_isScalar {v : Json} (h : v.isScalar) : v ≠ .null := by
  rintro rfl
  cases h

/-- The operands of a writable tree are scalars, so that it is kept. -/
theorem Node.Writable.kept {n : Node} (hn : n.Writable) : n.Kept := by
  induction hn with
  | comparison _ hv => exact .comparison (Json.distinct_of_isScalar hv.isScalar)
  | existence _ => exact .existence
  | containment _ _ hvs => exact .containment fun v hv => Json.distinct_of_isScalar (hvs v hv)
  | range _ hb =>
    refine .range (Bounds.kept_iff.mpr fun p hp => ?_)
    have hscalar := hb.scalar p hp
    exact ⟨Json.distinct_of_isScalar hscalar, Json.ne_null_of_isScalar hscalar⟩
  | pattern _ _ => exact .textMatch (by simp)
  | term _ hpairs => exact .textMatch fun p hp => Json.distinct_of_isScalar (hpairs p hp).2
  | boolean _ _ ih => exact .boolean ih
  | fullText _ _ => exact .fullText
  | path _ => exact .path

end ArchivalQuery
