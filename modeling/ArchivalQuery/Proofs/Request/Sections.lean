import ArchivalQuery.Proofs.Node.Reading
import ArchivalQuery.Proofs.Request.Grammar
import ArchivalQuery.Request.Read

/-! # Readers of sections

The reader of each section of a request accepts exactly the sections of the grammar.  The two option
sections are filled in key by key, in any order.
-/
namespace ArchivalQuery.Request
open Grammar

theorem readRoots_eq_ok_iff {v : Json} {ids : List String} :
    readRoots v = .ok ids ↔ v = .ofStrings ids := by
  have hroot : ∀ {v : Json} {id : String}, readRoot v = .ok id ↔ v = .str id := by
    intro v id
    cases v <;> simp [readRoot]
  cases v with
  | arr xs =>
    simp only [readRoots, Checked.mapM_eq_ok_iff, hroot, Json.ofStrings, Json.arr.injEq]
    rw [← List.forall₂_map_right_iff, List.forall₂_eq_eq_eq]
  | _ => simp [readRoots, Json.ofStrings]

theorem mapM_zipIdx_read_eq_ok_iff {vs : List Json} (hvs : ∀ v ∈ vs, v.Distinct) {index : Nat}
    {ss : List Step} :
    (vs.zipIdx index).mapM (fun p => Step.read p.2 p.1) = .ok ss ↔
      List.Forall₂ StepOf vs ss := by
  induction vs generalizing index ss with
  | nil =>
    rw [List.zipIdx_nil, List.mapM_nil, Checked.pure_eq_ok, List.forall₂_nil_left_iff, eq_comm]
  | cons v vs ih =>
    rw [List.forall_mem_cons] at hvs
    simp only [List.zipIdx_cons, List.mapM_cons, Checked.bind_eq_ok, Checked.pure_eq_ok,
      Step.read_eq_ok_iff hvs.1, ih hvs.2, List.forall₂_cons_left_iff]
    constructor
    · intro h
      rcases h with ⟨s, hs, ss, hss, rfl⟩
      exact ⟨s, ss, hs, hss, rfl⟩
    · intro h
      rcases h with ⟨s, ss, hs, hss, rfl⟩
      exact ⟨s, hs, ss, hss, rfl⟩

theorem readQuery_eq_ok_iff {v : Json} (hv : v.Distinct) {ss : List Step} :
    readQuery v = .ok ss ↔ QueryOf v ss := by
  unfold readQuery
  split
  · rename_i vs
    rw [mapM_zipIdx_read_eq_ok_iff fun v => hv.item]
    refine ⟨.steps, fun h => ?_⟩
    cases h with
    | step hs => cases hs
    | steps hss => exact hss
  · simp only [Checked.bind_eq_ok, Checked.pure_eq_ok, Step.read_eq_ok_iff hv]
    constructor
    · intro hn
      rcases hn with ⟨s, hs, rfl⟩
      exact .step hs
    · intro hn
      rcases hn with ⟨hs⟩
      exact ⟨_, hs, rfl⟩
  · rename_i harr hobj
    apply iff_of_false Checked.malformed_ne_ok
    rintro (⟨⟨⟩⟩ | _)
    · exact hobj _ rfl
    · exact harr _ rfl

theorem sectionMembers_eq_ok_iff {word : RequestKey} {v : Json} {ms : List (String × Json)} :
    sectionMembers word v = .ok ms ↔ SectionOf v ms := by
  unfold sectionMembers
  split
  · rw [Except.ok.injEq]
    exact ⟨fun h => h ▸ .object, fun h => by cases h; rfl⟩
  · rw [Except.ok.injEq]
    exact ⟨fun h => h ▸ .empty, fun h => by cases h; rfl⟩
  · rename_i hobj harr
    apply iff_of_false Checked.malformed_ne_ok
    intro hn
    rcases hn with _ | _
    · exact hobj _ rfl
    · exact harr rfl

theorem nodup_of_sectionOf {v : Json} {ms : List (String × Json)} (hv : v.Distinct)
    (h : SectionOf v ms) : (ms.map Prod.fst).Nodup := by
  cases h with
  | object => exact hv.nodup
  | empty => exact List.nodup_nil

theorem readOffset_eq_ok_iff {v : Json} {n : UInt64} :
    readNatural .offset .natural v = .ok n ↔ OffsetOf v n := by
  unfold readNatural OffsetOf
  rw [← Json.natural?_eq_some_iff]
  cases v.natural? <;> simp

theorem toNat_min (m n : UInt64) : (min m n).toNat = min m.toNat n.toNat := by
  change (if m ≤ n then m else n).toNat = _
  by_cases h : m ≤ n
  · rw [if_pos h]
    rw [UInt64.le_iff_toNat_le] at h
    omega
  · rw [if_neg h]
    rw [UInt64.le_iff_toNat_le] at h
    omega

theorem readLimit_eq_ok_iff {limits : Limits} {v : Json} {n : UInt64} :
    readLimit limits v = .ok n ↔ LimitOf limits v n := by
  have hnat (k : UInt64) :
      readNatural .limit .positive v = .ok k ↔ v.int? = some (k.toNat : Int) := by
    rw [← Json.natural?_eq_some_iff, readNatural]
    cases v.natural? <;> simp
  unfold readLimit LimitOf
  simp only [Checked.malformed_bind, Checked.bind_eq_ok, Checked.guard_eq_ok, Checked.pure_eq_ok,
    hnat]
  constructor
  · intro h
    rcases h with ⟨k, hk, h0, rfl⟩
    refine ⟨k.toNat, hk, ?_, ?_⟩
    · rw [← UInt64.toNat_inj] at h0
      exact Nat.pos_of_ne_zero h0
    · exact toNat_min k limits.defaultLimit
  · intro h
    rcases h with ⟨k, hk, h0, hn⟩
    have hlt := Json.lt_size_of_int? hk
    refine ⟨UInt64.ofNat k, ?_, ?_, ?_⟩
    · rwa [UInt64.toNat_ofNat_of_lt' hlt]
    · rw [← UInt64.toNat_inj, UInt64.toNat_ofNat_of_lt' hlt]
      exact Nat.ne_of_gt h0
    · rw [← UInt64.toNat_inj, toNat_min, UInt64.toNat_ofNat_of_lt' hlt, hn]

theorem foldl_addHint (hints ws : List Hint) :
    ws.foldl addHint hints = hints ++ (ws.filter (· ∉ hints)).eraseDups := by
  induction ws generalizing hints with
  | nil => simp
  | cons w ws ih =>
    rw [List.foldl_cons, ih, addHint]
    by_cases hw : w ∈ hints
    · simp [hw]
    · have hrest : ws.filter (· ∉ hints ++ [w]) =
          (ws.filter (· ∉ hints)).filter fun h => !h == w := by
        rw [List.filter_filter]
        refine List.filter_congr fun h _ => ?_
        rw [Bool.eq_iff_iff]
        simp [and_comm]
      rw [if_neg hw, List.filter_cons_of_pos (by simpa using hw), List.eraseDups_cons, hrest,
        List.append_assoc, List.singleton_append]

theorem readHint_eq_ok_iff {v : Json} {h : Hint} : readHint v = .ok h ↔ v = .str h.token := by
  unfold readHint
  cases v with
  | str s =>
    simp only [Json.str?, Option.bind_some, Json.str.injEq]
    rw [← Hint.ofToken?_eq_some_iff]
    cases Hint.ofToken? s <;> simp
  | _ => simp [Json.str?]

theorem hintsOf_iff {v : Json} {hs : List Hint} : HintsOf v hs ↔
    ∃ ws : List Hint, v = .ofStrings (ws.map Hint.token) ∧ hs = ws.eraseDups := by
  have htokens {tokens : List String} {ws : List Hint} :
      List.Forall₂ (fun token w => (token, w) ∈ hintTokens) tokens ws ↔
        tokens = ws.map Hint.token := by
    simp only [mem_hintTokens_iff]
    rw [← List.forall₂_eq_eq_eq, List.forall₂_map_right_iff]
  simp only [HintsOf, htokens]
  constructor
  · rintro ⟨_, ws, hv, rfl, hhs⟩
    exact ⟨ws, hv, hhs⟩
  · rintro ⟨ws, hv, hhs⟩
    exact ⟨_, ws, hv, rfl, hhs⟩

theorem readHints_eq_ok_iff {v : Json} {hs : List Hint} :
    readHints v = .ok hs ↔ HintsOf v hs := by
  rw [hintsOf_iff]
  cases v with
  | arr xs =>
    have htokens {ws : List Hint} :
        List.Forall₂ (fun x h => x = Json.str (Hint.token h)) xs ws ↔
          xs = (ws.map Hint.token).map .str := by
      rw [List.map_map, ← List.forall₂_eq_eq_eq, List.forall₂_map_right_iff]
      rfl
    have hall (ws : List Hint) : ws.filter (· ∉ ([] : List Hint)) = ws := by simp
    simp only [readHints, Checked.bind_eq_ok, Checked.pure_eq_ok, Checked.mapM_eq_ok_iff,
      readHint_eq_ok_iff, htokens, foldl_addHint, List.nil_append, hall, Json.ofStrings,
      Json.arr.injEq, @eq_comm _ hs]
  | _ => simp [readHints, Json.ofStrings]

theorem readOrderBy_eq_ok_iff {m : String × Json} {k : OrderBy} :
    readOrderBy m = .ok k ↔ SortKeyOf m k := by
  unfold readOrderBy
  rw [Checked.bind_unit_eq_ok, Field.check_eq_ok_iff]
  constructor
  · intro hn
    rcases hn with ⟨hf, h⟩
    split at h
    · obtain rfl := Checked.pure_eq_ok.mp h
      exact .ascending hf ‹_›
    · obtain rfl := Checked.pure_eq_ok.mp h
      exact .descending hf ‹_›
    · exact absurd h Checked.malformed_ne_ok
  · rintro (⟨hf, hv⟩ | ⟨hf, hv⟩)
    · exact ⟨hf, by rw [hv]; rfl⟩
    · exact ⟨hf, by rw [hv]; rfl⟩

theorem readOrder_eq_ok_iff {v : Json} {keys : List OrderBy} :
    readOrder v = .ok keys ↔ SortOf v keys := by
  unfold SortOf
  cases v with
  | obj ms => simp [readOrder, Checked.mapM_eq_ok_iff, readOrderBy_eq_ok_iff]
  | _ => simp [readOrder]

theorem readFilterOption_eq_ok_iff {limits : Limits} {f f' : FilterSection} {p : String × Json} :
    readFilterOption limits f p = .ok f' ↔
      (p.1 = "$offset" ∧ ∃ n, OffsetOf p.2 n ∧ f' = { f with offset := n }) ∨
      (p.1 = "$limit" ∧ ∃ n, LimitOf limits p.2 n ∧ f' = { f with limit := n }) ∨
      (p.1 = "$hint" ∧ ∃ hs, HintsOf p.2 hs ∧ f' = { f with hints := hs }) ∨
      (p.1 = "$orderby" ∧ ∃ keys, SortOf p.2 keys ∧ f' = { f with orderBy := keys }) := by
  unfold readFilterOption
  cases h : FilterKey.ofToken? p.1 with
  | none =>
    have hne := ne_token_of_wordOfToken? h
    simp_all [FilterKey.all, FilterKey.token]
  | some k =>
    rw [FilterKey.ofToken?_eq_some_iff] at h
    rw [h]
    cases k <;> simp [FilterKey.token, readOffset_eq_ok_iff, readLimit_eq_ok_iff,
      readHints_eq_ok_iff, readOrder_eq_ok_iff, @eq_comm _ f']

/-- What a reader decides has at most one reading. -/
theorem eq_of_reads {α : Type} {read : Json → Checked α} {Reads : Json → α → Prop}
    (h : ∀ v x, read v = .ok x ↔ Reads v x) (v : Json) (x y : α) (hx : Reads v x)
    (hy : Reads v y) : x = y := by
  rw [← h] at hx hy
  rw [hx] at hy
  exact Except.ok.inj hy

theorem optionsOf_unique {limits : Limits} {ms : List (String × Json)} {f f' : FilterSection}
    (hf : OptionsOf limits ms f) (hf' : OptionsOf limits ms f') : f = f' := by
  have hoffset := hf.offset.unique (eq_of_reads fun _ _ => readOffset_eq_ok_iff) hf'.offset
  have hlimit := hf.limit.unique (eq_of_reads fun _ _ => readLimit_eq_ok_iff) hf'.limit
  have hhints := hf.hints.unique (eq_of_reads fun _ _ => readHints_eq_ok_iff) hf'.hints
  have horder := hf.orderBy.unique (eq_of_reads fun _ _ => readOrder_eq_ok_iff) hf'.orderBy
  cases f
  cases f'
  simp_all

theorem optionsOf_of_foldlM {limits : Limits} {ms : List (String × Json)}
    (hms : (ms.map Prod.fst).Nodup) {f : FilterSection}
    (h : ms.foldlM (readFilterOption limits) (defaultFilter limits) = .ok f) :
    OptionsOf limits ms f := by
  constructor
  · intro m hm
    rcases Checked.exists_eq_ok_of_foldlM h hm with ⟨c, c', hc⟩
    rcases readFilterOption_eq_ok_iff.mp hc with ⟨hk, -⟩ | ⟨hk, -⟩ | ⟨hk, -⟩ | ⟨hk, -⟩ <;> simp [hk]
  -- Each option is written by its own key and by no other.
  · refine Json.gives_of_foldlM FilterSection.offset ?_ ?_ hms h <;>
      grind [readFilterOption_eq_ok_iff]
  · refine Json.gives_of_foldlM FilterSection.limit ?_ ?_ hms h <;>
      grind [readFilterOption_eq_ok_iff]
  · refine Json.gives_of_foldlM FilterSection.hints ?_ ?_ hms h <;>
      grind [readFilterOption_eq_ok_iff]
  · refine Json.gives_of_foldlM FilterSection.orderBy ?_ ?_ hms h <;>
      grind [readFilterOption_eq_ok_iff]

theorem foldlM_readFilterOption_eq_ok_iff {limits : Limits} {ms : List (String × Json)}
    (hms : (ms.map Prod.fst).Nodup) {f : FilterSection} :
    ms.foldlM (readFilterOption limits) (defaultFilter limits) = .ok f ↔
      OptionsOf limits ms f := by
  constructor
  · exact optionsOf_of_foldlM hms
  · intro hf
    have accepted : ∀ m ∈ ms, ∀ c, ∃ c', readFilterOption limits c m = .ok c' := by
      intro m hm c
      rcases m with ⟨k, v⟩
      simp only [readFilterOption_eq_ok_iff]
      have hk := hf.keys _ hm
      simp only [List.mem_cons, List.not_mem_nil, or_false] at hk
      rcases hk with rfl | rfl | rfl | rfl
      · exact ⟨_, .inl ⟨rfl, _, hf.offset.of_mem hms hm, rfl⟩⟩
      · exact ⟨_, .inr (.inl ⟨rfl, _, hf.limit.of_mem hms hm, rfl⟩)⟩
      · exact ⟨_, .inr (.inr (.inl ⟨rfl, _, hf.hints.of_mem hms hm, rfl⟩))⟩
      · exact ⟨_, .inr (.inr (.inr ⟨rfl, _, hf.orderBy.of_mem hms hm, rfl⟩))⟩
    rcases Checked.exists_foldlM_eq_ok accepted (defaultFilter limits) with ⟨f', hf'⟩
    rw [hf', optionsOf_unique (optionsOf_of_foldlM hms hf') hf]

theorem readFilter_eq_ok_iff {limits : Limits} {v : Json} (hv : v.Distinct) {f : FilterSection} :
    readFilter limits v = .ok f ↔ FilterOf limits v f := by
  unfold readFilter FilterOf
  simp only [Checked.bind_eq_ok, sectionMembers_eq_ok_iff]
  refine exists_congr fun ms => and_congr_right fun hms => ?_
  exact foldlM_readFilterOption_eq_ok_iff (nodup_of_sectionOf hv hms)

theorem readProjectedField_eq_ok_iff {m : String × Json} {f : ProjectedField} :
    readProjectedField m = .ok f ↔ ProjectedOf m f := by
  rcases m with ⟨name, v⟩
  unfold readProjectedField
  rw [Checked.bind_unit_eq_ok, Field.check_eq_ok_iff]
  constructor
  · intro hn
    rcases hn with ⟨hf, h⟩
    split at h
    · rename_i hv
      obtain rfl : v = .bool _ := hv
      obtain rfl := Checked.pure_eq_ok.mp h
      exact .bool hf
    · split at h
      · obtain rfl := Checked.pure_eq_ok.mp h
        exact .one hf ‹_›
      · obtain rfl := Checked.pure_eq_ok.mp h
        exact .zero hf ‹_›
      · exact absurd h Checked.malformed_ne_ok
  · rintro (hf | ⟨hf, hv⟩ | ⟨hf, hv⟩)
    · exact ⟨hf, rfl⟩
    · refine ⟨hf, ?_⟩
      cases v <;> simp_all [Json.int?]
    · refine ⟨hf, ?_⟩
      cases v <;> simp_all [Json.int?]

theorem readProjectedFields_eq_ok_iff {v : Json} {fields : List ProjectedField} :
    readProjectedFields v = .ok fields ↔ FieldsOf v fields := by
  unfold FieldsOf
  cases v with
  | obj ms => simp [readProjectedFields, Checked.mapM_eq_ok_iff, readProjectedField_eq_ok_iff]
  | _ => simp [readProjectedFields]

theorem readUsage_eq_ok_iff {v : Json} {text : String} :
    readUsage v = .ok text ↔ v = .str text := by
  cases v <;> simp [readUsage]

theorem readProjectionOption_eq_ok_iff {q q' : Projection} {p : String × Json} :
    readProjectionOption q p = .ok q' ↔
      (p.1 = "$fields" ∧ ∃ fields, FieldsOf p.2 fields ∧ q' = { q with fields := fields }) ∨
      (p.1 = "$usage" ∧ ∃ text, p.2 = .str text ∧ q' = { q with usage := some text }) := by
  unfold readProjectionOption
  cases h : ProjectionKey.ofToken? p.1 with
  | none =>
    have hne := ne_token_of_wordOfToken? h
    simp_all [ProjectionKey.all, ProjectionKey.token]
  | some k =>
    rw [ProjectionKey.ofToken?_eq_some_iff] at h
    rw [h]
    cases k <;> simp [ProjectionKey.token, readProjectedFields_eq_ok_iff, readUsage_eq_ok_iff,
      @eq_comm _ q']

theorem projectionParts_unique {ms : List (String × Json)} {p p' : Projection}
    (hp : ProjectionParts ms p) (hp' : ProjectionParts ms p') : p = p' := by
  have hfields := hp.fields.unique (eq_of_reads fun _ _ => readProjectedFields_eq_ok_iff) hp'.fields
  have husage := hp.usage.unique (by grind) hp'.usage
  cases p
  cases p'
  simp_all

theorem projectionParts_of_foldlM {ms : List (String × Json)} (hms : (ms.map Prod.fst).Nodup)
    {p : Projection} (h : ms.foldlM readProjectionOption {} = .ok p) : ProjectionParts ms p := by
  constructor
  · intro m hm
    rcases Checked.exists_eq_ok_of_foldlM h hm with ⟨c, c', hc⟩
    rcases readProjectionOption_eq_ok_iff.mp hc with ⟨hk, -⟩ | ⟨hk, -⟩ <;> simp [hk]
  · refine Json.gives_of_foldlM Projection.fields ?_ ?_ hms h <;>
      grind [readProjectionOption_eq_ok_iff]
  · refine Json.gives_of_foldlM Projection.usage ?_ ?_ hms h <;>
      grind [readProjectionOption_eq_ok_iff]

theorem foldlM_readProjectionOption_eq_ok_iff {ms : List (String × Json)}
    (hms : (ms.map Prod.fst).Nodup) {p : Projection} :
    ms.foldlM readProjectionOption {} = .ok p ↔ ProjectionParts ms p := by
  constructor
  · exact projectionParts_of_foldlM hms
  · intro hp
    have accepted : ∀ m ∈ ms, ∀ c, ∃ c', readProjectionOption c m = .ok c' := by
      intro m hm c
      rcases m with ⟨k, v⟩
      simp only [readProjectionOption_eq_ok_iff]
      have hk := hp.keys _ hm
      simp only [List.mem_cons, List.not_mem_nil, or_false] at hk
      rcases hk with rfl | rfl
      · exact ⟨_, .inl ⟨rfl, _, hp.fields.of_mem hms hm, rfl⟩⟩
      · rcases hp.usage.of_mem hms hm with ⟨text, hv, -⟩
        exact ⟨_, .inr ⟨rfl, text, hv, rfl⟩⟩
    rcases Checked.exists_foldlM_eq_ok accepted {} with ⟨p', hp'⟩
    rw [hp', projectionParts_unique (projectionParts_of_foldlM hms hp') hp]

theorem readProjection_eq_ok_iff {v : Json} (hv : v.Distinct) {p : Projection} :
    readProjection v = .ok p ↔ ProjectionOf v p := by
  unfold readProjection ProjectionOf
  simp only [Checked.bind_eq_ok, sectionMembers_eq_ok_iff]
  refine exists_congr fun ms => and_congr_right fun hms => ?_
  exact foldlM_readProjectionOption_eq_ok_iff (nodup_of_sectionOf hv hms)

end ArchivalQuery.Request
