import ArchivalQuery.Proofs.Json.Members
import ArchivalQuery.Proofs.Node.Grammar
import Mathlib.Data.List.Nodup

/-! # Readers of operands

The reader of each operand accepts exactly the operands of the grammar, with their trees.  Bounds
and searches for similar documents are filled in part by part; that no key stands twice makes the
order of the parts irrelevant.
-/
namespace ArchivalQuery.Expression
open Grammar

section Shapes
variable {op : Operator} {v : Json}

theorem asObject_eq_ok_iff {ms : List (String × Json)} : asObject op v = .ok ms ↔ v = .obj ms := by
  cases v <;> simp [asObject]

theorem asArray_eq_ok_iff {xs : List Json} : asArray op v = .ok xs ↔ v = .arr xs := by
  cases v <;> simp [asArray]

theorem asString_eq_ok_iff {s : String} : asString op v = .ok s ↔ v = .str s := by
  cases v <;> simp [asString]

theorem soleField_eq_ok_iff {p : String × Json} : soleField op v = .ok p ↔ v = .obj [p] := by
  unfold soleField
  simp only [Checked.bind_eq_ok, asObject_eq_ok_iff]
  constructor
  · intro hn
    rcases hn with ⟨ms, rfl, h⟩
    split at h
    · rw [Checked.pure_eq_ok] at h
      rw [h]
    · simp at h
  · rintro rfl
    exact ⟨[p], rfl, rfl⟩

theorem mapM_asString_eq_ok_iff {xs : List Json} {ss : List String} :
    xs.mapM (asString op) = .ok ss ↔ xs = ss.map .str := by
  simp only [Checked.mapM_eq_ok_iff, asString_eq_ok_iff]
  rw [← List.forall₂_map_right_iff, List.forall₂_eq_eq_eq]

/-- An operand with one field is read by the view of what the field is given. -/
theorem soleField_bind_eq_ok_iff {α : Type} {view : Json → Checked α} {embed : α → Json}
    (hview : ∀ w x, view w = .ok x ↔ w = embed x) (build : String → α → Checked Node) {n : Node} :
    (do let (name, w) ← soleField op v; build name (← view w)) = .ok n ↔
      ∃ name x, v = .obj [(name, embed x)] ∧ build name x = .ok n := by
  simp only [Checked.bind_eq_ok, soleField_eq_ok_iff, hview]
  constructor
  · intro h
    rcases h with ⟨⟨name, w⟩, hv, x, hx, hn⟩
    obtain rfl : w = embed x := hx
    exact ⟨name, x, hv, hn⟩
  · intro h
    rcases h with ⟨name, x, hv, hn⟩
    exact ⟨(name, embed x), hv, x, rfl, hn⟩

end Shapes

section Leaves
variable {v : Json} {n : Node}

theorem readExistence_eq_ok_iff {op : Existence} : readExistence op v = .ok n ↔ Named op v n := by
  unfold readExistence Named
  simp only [Checked.bind_eq_ok, asString_eq_ok_iff, Build.existence_eq_ok_iff]

theorem readComparison_eq_ok_iff {op : Comparison} :
    readComparison op v = .ok n ↔ Compared op v n := by
  unfold readComparison Compared
  simp only [Checked.bind_eq_ok, soleField_eq_ok_iff, Build.comparison_eq_ok_iff, Prod.exists]
  constructor
  · intro h
    rcases h with ⟨name, w, hv, hw, hf, hn⟩
    exact ⟨name, w, hv, hf, hw, hn⟩
  · intro h
    rcases h with ⟨name, w, hv, hf, hw, hn⟩
    exact ⟨name, w, hv, hw, hf, hn⟩

theorem readContainment_eq_ok_iff {op : Containment} :
    readContainment op v = .ok n ↔ Contained op v n := by
  apply (soleField_bind_eq_ok_iff (fun _ _ => asArray_eq_ok_iff) (Build.containment op)).trans
  simp only [Contained, Build.containment_eq_ok_iff]
  constructor
  · intro h
    rcases h with ⟨name, ws, hv, hne, hws, hf, hn⟩
    exact ⟨name, ws, hv, hf, hne, hws, hn⟩
  · intro h
    rcases h with ⟨name, ws, hv, hf, hne, hws, hn⟩
    exact ⟨name, ws, hv, hne, hws, hf, hn⟩

theorem readWildcard_eq_ok_iff : readWildcard v = .ok n ↔ Matched .wildcard v n := by
  apply (soleField_bind_eq_ok_iff (fun _ _ => asString_eq_ok_iff) Build.wildcard).trans
  simp only [Matched, Build.wildcard_eq_ok_iff]

theorem readRegex_eq_ok_iff : readRegex v = .ok n ↔ Matched .regex v n := by
  apply (soleField_bind_eq_ok_iff (fun _ _ => asString_eq_ok_iff) Build.regex).trans
  simp only [Matched, Build.regex_eq_ok_iff]

theorem readTerm_eq_ok_iff : readTerm v = .ok n ↔ Terms v n := by
  unfold readTerm Terms
  simp only [Checked.bind_eq_ok, asObject_eq_ok_iff, Build.term_eq_ok_iff]

theorem readFullText_eq_ok_iff {op : FullText} :
    readFullText op v = .ok n ↔ Searched op v n := by
  refine (soleField_bind_eq_ok_iff (fun _ _ => asString_eq_ok_iff)
    (Build.fullText op [·])).trans ?_
  simp [Searched, Build.fullText_eq_ok_iff]

theorem readPath_eq_ok_iff : readPath v = .ok n ↔ Listed v n := by
  unfold readPath Listed
  simp only [Checked.bind_eq_ok, asArray_eq_ok_iff, mapM_asString_eq_ok_iff, Build.path_eq_ok_iff]
  constructor
  · intro hn
    rcases hn with ⟨_, hv, ids, rfl, h⟩
    exact ⟨ids, hv, h⟩
  · intro hn
    rcases hn with ⟨ids, hv, h⟩
    exact ⟨_, hv, ids, rfl, h⟩

theorem readBound_eq_ok_iff {b b' : Bounds} {p : String × Json} :
    readBound b p = .ok b' ↔
      (p.1 = "$gt" ∧ b' = { b with gt := some p.2 }) ∨
      (p.1 = "$gte" ∧ b' = { b with gte := some p.2 }) ∨
      (p.1 = "$lt" ∧ b' = { b with lt := some p.2 }) ∨
      (p.1 = "$lte" ∧ b' = { b with lte := some p.2 }) := by
  unfold readBound
  cases h : Operator.ofToken? p.1 with
  | none =>
    have hne := ne_token_of_wordOfToken? h
    simp_all [Operator.all, Operator.token]
  | some op =>
    rw [Operator.ofToken?_eq_some_iff] at h
    rw [h]
    cases op <;> simp [Operator.token, @eq_comm Bounds]

theorem boundsOf_of_foldlM {ms : List (String × Json)} (hms : (ms.map Prod.fst).Nodup)
    {b : Bounds} (h : ms.foldlM readBound {} = .ok b) : BoundsOf ms b := by
  constructor
  · intro m hm
    rcases Checked.exists_eq_ok_of_foldlM h hm with ⟨c, c', hc⟩
    rcases readBound_eq_ok_iff.mp hc with ⟨hk, -⟩ | ⟨hk, -⟩ | ⟨hk, -⟩ | ⟨hk, -⟩ <;> simp [hk]
  -- Each bound is written by its own key and by no other.
  · refine Json.gives_some_iff.mp (Json.gives_of_foldlM Bounds.gt ?_ ?_ hms h) <;>
      grind [readBound_eq_ok_iff]
  · refine Json.gives_some_iff.mp (Json.gives_of_foldlM Bounds.gte ?_ ?_ hms h) <;>
      grind [readBound_eq_ok_iff]
  · refine Json.gives_some_iff.mp (Json.gives_of_foldlM Bounds.lt ?_ ?_ hms h) <;>
      grind [readBound_eq_ok_iff]
  · refine Json.gives_some_iff.mp (Json.gives_of_foldlM Bounds.lte ?_ ?_ hms h) <;>
      grind [readBound_eq_ok_iff]

theorem foldlM_readBound_eq_ok_iff {ms : List (String × Json)} (hms : (ms.map Prod.fst).Nodup)
    {b : Bounds} : ms.foldlM readBound {} = .ok b ↔ BoundsOf ms b := by
  constructor
  · exact boundsOf_of_foldlM hms
  · intro hb
    have accepted : ∀ m ∈ ms, ∀ c, ∃ c', readBound c m = .ok c' := by
      intro m hm c
      have hk := hb.keys m hm
      simp only [List.mem_cons, List.not_mem_nil, or_false] at hk
      rcases hk with hk | hk | hk | hk <;> simp [readBound_eq_ok_iff, hk]
    rcases Checked.exists_foldlM_eq_ok accepted {} with ⟨b', hb'⟩
    rw [hb', (boundsOf_of_foldlM hms hb').unique hb]

theorem readRange_eq_ok_iff (hv : v.Distinct) : readRange v = .ok n ↔ Ranged v n := by
  refine (soleField_bind_eq_ok_iff (fun _ _ => asObject_eq_ok_iff)
    (fun name ms => ms.foldlM readBound {} >>= Build.range name)).trans ?_
  simp only [Ranged, Checked.bind_eq_ok, Build.range_eq_ok_iff]
  constructor
  · intro h
    rcases h with ⟨name, ms, rfl, b, hb, hp, hf, hn⟩
    have hms := (hv.member List.mem_cons_self).nodup
    exact ⟨name, ms, b, rfl, hf, (foldlM_readBound_eq_ok_iff hms).mp hb, hp, hn⟩
  · intro h
    rcases h with ⟨name, ms, b, rfl, hf, hb, hp, hn⟩
    have hms := (hv.member List.mem_cons_self).nodup
    exact ⟨name, ms, rfl, b, (foldlM_readBound_eq_ok_iff hms).mpr hb, hp, hf, hn⟩

theorem readMoreLikePart_eq_ok_iff {parts parts' : Option (List String) × Option String}
    {p : String × Json} :
    readMoreLikePart parts p = .ok parts' ↔
      (p.1 = "$fields" ∧ ∃ names, p.2 = .ofStrings names ∧ parts' = (some names, parts.2)) ∨
      (p.1 = "$like" ∧ ∃ text, p.2 = .str text ∧ parts' = (parts.1, some text)) := by
  unfold readMoreLikePart
  by_cases hf : p.1 = "$fields"
  · simp only [hf, if_true, Checked.bind_eq_ok, asArray_eq_ok_iff, mapM_asString_eq_ok_iff,
      Checked.pure_eq_ok, Json.ofStrings]
    grind
  · by_cases hl : p.1 = "$like"
    · simp [hl, asString_eq_ok_iff, @eq_comm _ parts']
    · simp [hf, hl]

theorem gives_of_foldlM_readMoreLikePart {ms : List (String × Json)}
    (hms : (ms.map Prod.fst).Nodup) {parts : Option (List String) × Option String}
    (h : ms.foldlM readMoreLikePart (none, none) = .ok parts) :
    Json.Gives ms "$fields" (fun v x => ∃ names, v = .ofStrings names ∧ x = some names) none
        parts.1 ∧
      Json.Gives ms "$like" (fun v x => ∃ text, v = .str text ∧ x = some text) none parts.2 := by
  constructor
  · refine Json.gives_of_foldlM Prod.fst ?_ ?_ hms h <;> grind [readMoreLikePart_eq_ok_iff]
  · refine Json.gives_of_foldlM Prod.snd ?_ ?_ hms h <;> grind [readMoreLikePart_eq_ok_iff]

/-- Both parts are there, and nothing else is. -/
theorem foldlM_readMoreLikePart_eq_ok_iff {ms : List (String × Json)}
    (hms : (ms.map Prod.fst).Nodup) {names : List String} {text : String} :
    ms.foldlM readMoreLikePart (none, none) = .ok (some names, some text) ↔
      ms.Perm [("$fields", .ofStrings names), ("$like", .str text)] := by
  constructor
  · intro h
    rcases gives_of_foldlM_readMoreLikePart hms h with ⟨hfields, hlike⟩
    rcases Json.Gives.exists_mem hms hfields with ⟨_, hf, rfl⟩
    rcases Json.Gives.exists_mem hms hlike with ⟨_, hl, rfl⟩
    apply (List.perm_ext_iff_of_nodup (List.Nodup.of_map _ hms) (by simp)).mpr
    intro m
    constructor
    · intro hm
      rcases m with ⟨k, v⟩
      rcases Checked.exists_eq_ok_of_foldlM h hm with ⟨c, c', hc⟩
      rcases readMoreLikePart_eq_ok_iff.mp hc with ⟨rfl, -⟩ | ⟨rfl, -⟩
      · simp [Json.eq_of_mem hms hm hf]
      · simp [Json.eq_of_mem hms hm hl]
    · simp only [List.mem_cons, List.not_mem_nil, or_false]
      intro hn
      rcases hn with rfl | rfl
      · exact hf
      · exact hl
  · intro hp
    have accepted : ∀ m ∈ ms, ∀ c, ∃ c', readMoreLikePart c m = .ok c' := by
      intro m hm c
      rw [hp.mem_iff, List.mem_cons, List.mem_singleton] at hm
      rcases hm with rfl | rfl <;> simp [readMoreLikePart_eq_ok_iff]
    rcases Checked.exists_foldlM_eq_ok accepted (none, none) with ⟨parts, h⟩
    rcases gives_of_foldlM_readMoreLikePart hms h with ⟨hfields, hlike⟩
    rcases hfields.of_mem hms (hp.mem_iff.mpr List.mem_cons_self) with ⟨names', hnames, hf⟩
    obtain ⟨text', htext, hl⟩ := hlike.of_mem hms (hp.mem_iff.mpr
      (List.mem_cons_of_mem _ List.mem_cons_self))
    obtain rfl := Json.ofStrings_inj.mp hnames
    obtain rfl := Json.str.inj htext
    rw [h, ← hf, ← hl]

theorem readMoreLike_eq_ok_iff (hv : v.Distinct) : readMoreLike v = .ok n ↔ SimilarTo v n := by
  unfold readMoreLike SimilarTo
  simp only [Checked.bind_eq_ok, asObject_eq_ok_iff]
  constructor
  · intro h
    rcases h with ⟨ms, rfl, parts, hparts, hn⟩
    split at hn
    · rw [Build.fullText_eq_ok_iff] at hn
      exact ⟨ms, _, _, rfl, (foldlM_readMoreLikePart_eq_ok_iff hv.nodup).mp hparts, hn⟩
    · simp at hn
  · intro h
    rcases h with ⟨ms, names, text, rfl, hp, hn⟩
    exact ⟨ms, rfl, _, (foldlM_readMoreLikePart_eq_ok_iff hv.nodup).mpr hp,
      Build.fullText_eq_ok_iff.mpr hn⟩

theorem leafOrConnective_eq_inl_iff {op : Operator} {c : Connective} :
    leafOrConnective op = .inl c ↔ op = c.operator := by
  cases op <;> cases c <;> simp [leafOrConnective, Connective.operator]

/-- The reader of a leaf accepts exactly the operands of its operator. -/
theorem readLeaf_eq_ok_iff (hv : v.Distinct) {op : Operator} {readLeaf : Json → Checked Node}
    (h : leafOrConnective op = .inr readLeaf) : readLeaf v = .ok n ↔ Operand op v n := by
  cases op <;> simp only [leafOrConnective, Sum.inr.injEq, reduceCtorEq] at h <;> subst h
  all_goals
    simp only [Operand, readExistence_eq_ok_iff, readComparison_eq_ok_iff,
      readContainment_eq_ok_iff, readWildcard_eq_ok_iff, readRegex_eq_ok_iff,
      readRange_eq_ok_iff hv, readTerm_eq_ok_iff, readFullText_eq_ok_iff, readPath_eq_ok_iff,
      readMoreLike_eq_ok_iff hv]

end Leaves
end ArchivalQuery.Expression
