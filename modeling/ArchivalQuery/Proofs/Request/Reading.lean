import ArchivalQuery.Proofs.Request.Sections

/-! # The reader of requests

The reader of requests accepts exactly the requests of the grammar and returns the request that the
value stands for.
-/
namespace ArchivalQuery.Request
open Grammar
open Json (Gives)

theorem checkKey_eq_ok_iff {kind : RequestKind} {key : String} :
    checkKey kind key = .ok () ↔ key ∈ requestKeys kind := by
  have hkeys : requestKeys kind = (allowedKeys kind).map RequestKey.token := by
    cases kind <;> rfl
  rw [hkeys, List.mem_map]
  unfold checkKey
  split
  · rename_i k hk
    rw [RequestKey.ofToken?_eq_some_iff] at hk
    subst hk
    have hmem : (∃ j ∈ allowedKeys kind, j.token = k.token) ↔ k ∈ allowedKeys kind := by
      refine ⟨?_, fun h => ⟨k, h, rfl⟩⟩
      intro hn
      rcases hn with ⟨j, hj, hjk⟩
      rwa [← RequestKey.token_injective hjk]
    rw [hmem]
    split <;> simp_all
  · rename_i hk
    apply iff_of_false Checked.malformed_ne_ok
    intro hn
    rcases hn with ⟨j, -, rfl⟩
    rw [RequestKey.ofToken?_token] at hk
    cases hk

/-- A section is read, or has its default. -/
theorem readSection_eq_ok_iff {α : Type} {ms : List (String × Json)} (hms : (ms.map Prod.fst).Nodup)
    {key : RequestKey} {default x : α} {read : Json → Checked α} {Reads : Json → α → Prop}
    (h : ∀ v, (key.token, v) ∈ ms → (read v = .ok x ↔ Reads v x)) :
    readSection ms key default read = .ok x ↔ Gives ms key.token Reads default x := by
  unfold readSection Gives
  cases hl : ms.lookup key.token with
  | none => simp [eq_comm]
  | some v => exact h v ((Json.lookup_eq_some_iff_mem hms).mp hl)

theorem readData_eq_ok_iff {ms : List (String × Json)} (hms : (ms.map Prod.fst).Nodup)
    {kind : RequestKind} {data : Option Json} :
    readData kind (ms.lookup RequestKey.data.token) = .ok data ↔ DataOf ms kind data := by
  have write (hkind : kind ≠ .select) :
      readData kind (ms.lookup RequestKey.data.token) = .ok data ↔
        ∃ ds, ("$data", .obj ds) ∈ ms ∧ data = some (.obj ds) := by
    have hwrite : kind.isWrite = true := by cases kind <;> simp_all [RequestKind.isWrite]
    simp only [← Json.lookup_eq_some_iff_mem hms, readData, hwrite, if_true, RequestKey.token]
    cases ms.lookup "$data" with
    | none => simp
    | some v => cases v <;> simp [@eq_comm _ data]
  cases kind with
  | select =>
    simp only [readData, RequestKind.isWrite, Bool.false_eq_true, if_false, Except.ok.injEq]
    refine ⟨fun h => h ▸ .select, fun h => ?_⟩
    cases h with
    | select => rfl
    | write hkind _ => exact absurd rfl hkind
  | insert | update =>
    rw [write nofun]
    constructor
    · intro hn
      rcases hn with ⟨ds, hds, rfl⟩
      exact .write nofun hds
    · intro h
      cases h with
      | write _ hds => exact ⟨_, hds, rfl⟩

/-- A value whose objects repeat no key is read exactly if it is a request of the grammar, and then
as the request that it stands for. -/
theorem read_eq_ok_iff_requestOf {kind : RequestKind} {limits : Limits} {v : Json}
    (hv : v.Distinct) {r : Request} :
    read kind limits v = .ok r ↔ ∃ ms, v = .obj ms ∧ RequestOf kind limits ms r := by
  unfold read
  split
  · rename_i ms
    have hms := hv.nodup
    have roots {ids : List String} : readSection ms .roots [] readRoots = .ok ids ↔
        Gives ms "$roots" (fun v ids => v = .ofStrings ids) [] ids :=
      readSection_eq_ok_iff hms fun _ _ => readRoots_eq_ok_iff
    have steps {ss : List Step} : readSection ms .query [] readQuery = .ok ss ↔
        Gives ms "$query" QueryOf [] ss :=
      readSection_eq_ok_iff hms fun _ hm => readQuery_eq_ok_iff (hv.member hm)
    have filter {f : FilterSection} :
        readSection ms .filter (defaultFilter limits) (readFilter limits) = .ok f ↔
          Gives ms "$filter" (FilterOf limits) (noFilter limits) f :=
      readSection_eq_ok_iff hms fun _ hm => readFilter_eq_ok_iff (hv.member hm)
    have projection {p : Projection} : readSection ms .projection {} readProjection = .ok p ↔
        Gives ms "$projection" ProjectionOf {} p :=
      readSection_eq_ok_iff hms fun _ hm => readProjection_eq_ok_iff (hv.member hm)
    rw [List.forM_eq_forM, Checked.bind_unit_eq_ok, Checked.forM_eq_ok_iff]
    simp only [Checked.bind_eq_ok, Checked.pure_eq_ok, checkKey_eq_ok_iff, roots, steps, filter,
      projection, readData_eq_ok_iff hms, Json.obj.injEq, exists_eq_left']
    constructor
    · intro h
      rcases h with ⟨hkeys, ids, hids, ss, hss, f, hf, p, hp, data, hdata, rfl⟩
      exact ⟨hkeys, rfl, hids, hss, hf, hp, hdata⟩
    · intro h
      rcases h with ⟨hkeys, rfl, hids, hss, hf, hp, hdata⟩
      exact ⟨hkeys, _, hids, _, hss, _, hf, _, hp, _, hdata, rfl⟩
  · rename_i hobj
    apply iff_of_false Checked.malformed_ne_ok
    intro h
    rcases h with ⟨ms, rfl, -⟩
    exact hobj ms rfl

theorem requestOf_negation_above_root :
    (Json.obj [("$roots", .ofStrings ["a"]), ("$query", .obj [("$depth", .ofInt32 (-2)),
      ("$not", .arr [.obj [("$exists", .str "Title")]])])]).Distinct ∧
    RequestOf .select {} [("$roots", .ofStrings ["a"]), ("$query", .obj [("$depth", .ofInt32 (-2)),
        ("$not", .arr [.obj [("$exists", .str "Title")]])])]
      { kind := .select
        roots := ["a"]
        steps := [⟨.boolean .not [.existence .present "Title"], .relative (-2)⟩]
        filter := { limit := 10000 }
        projection := {}
        data := none } := by
  have hv : (Json.obj [("$roots", .ofStrings ["a"]), ("$query", .obj [("$depth", .ofInt32 (-2)),
      ("$not", .arr [.obj [("$exists", .str "Title")]])])]).Distinct := by
    simp [Json.Distinct, Json.ItemsDistinct, Json.MembersDistinct, Json.ofStrings, Json.ofInt32]
  have hread := (read_eq_ok_iff_requestOf hv).mp (show read .select {} _ = .ok _ from rfl)
  rcases hread with ⟨ms, hms, h⟩
  cases hms
  exact ⟨hv, h⟩

end ArchivalQuery.Request
