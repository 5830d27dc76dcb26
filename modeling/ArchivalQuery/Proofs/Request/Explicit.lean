import ArchivalQuery.Proofs.Node.Explicit
import ArchivalQuery.Request.Read

/-! # Explicit requests

A request may leave out its roots and its query, give its only step as the query, stand an empty
array for an empty option section, and leave the conjunctions of its expressions to be understood.
Written out in full it has the same outcome.
-/
namespace ArchivalQuery.Request

/-- A query as an array of explicit steps. -/
def explicitQuery : Json → Json
  | .arr vs => .arr (vs.map Step.explicit)
  | .obj ms => .arr [Step.explicit (.obj ms)]
  | v => v

def explicitOptions : Json → Json
  | .arr [] => .obj []
  | v => v

def explicitSection (key : String) (v : Json) : Json :=
  if key = "$query" then explicitQuery v
  else if key ∈ ["$filter", "$projection"] then explicitOptions v
  else v

/-- The roots and the query that an object lacks, both empty. -/
def missingSections (ms : List (String × Json)) : List (String × Json) :=
  (["$roots", "$query"].filter (· ∉ ms.map Prod.fst)).map fun key => (key, .arr [])

def explicitMembers (ms : List (String × Json)) : List (String × Json) :=
  ms.map (fun m => (m.1, explicitSection m.1 m.2)) ++ missingSections ms

def explicit : Json → Json
  | .obj ms => .obj (explicitMembers ms)
  | v => v

theorem readQuery_explicitQuery (v : Json) : readQuery (explicitQuery v) = readQuery v := by
  cases v with
  | arr vs =>
    have hstep : (fun p : Json × Nat => Step.read p.2 p.1) ∘ Prod.map Step.explicit id =
        fun p => Step.read p.2 p.1 := by
      funext p
      exact Step.read_explicit p.2 p.1
    rw [explicitQuery, readQuery, readQuery, List.zipIdx_map, List.mapM_map, hstep]
  | obj ms =>
    have hone : readQuery (.arr [Step.explicit (.obj ms)]) =
        Step.read 0 (Step.explicit (.obj ms)) >>= fun s => pure [s] := by
      simp [readQuery]
    rw [explicitQuery, hone, Step.read_explicit]
    rfl
  | _ => rfl

theorem sectionMembers_explicitOptions (word : RequestKey) (v : Json) :
    sectionMembers word (explicitOptions v) = sectionMembers word v := by
  match v with
  | .arr [] | .arr (_ :: _) => rfl
  | .null | .bool _ | .num _ | .str _ | .obj _ => rfl

variable {ms : List (String × Json)}

theorem of_lookup_missingSections {key : String} {v : Json}
    (h : (missingSections ms).lookup key = some v) :
    key ∈ ["$roots", "$query"] ∧ v = .arr [] := by
  rcases List.lookup_eq_some_iff.mp h with ⟨before, after, hms, -⟩
  have hmem : (key, v) ∈ missingSections ms := by
    rw [hms]
    exact List.mem_append_right before List.mem_cons_self
  rcases List.mem_map.mp hmem with ⟨k, hk, hkv⟩
  rw [Prod.mk.injEq] at hkv
  exact ⟨hkv.1 ▸ List.mem_of_mem_filter hk, hkv.2.symm⟩

theorem readSection_explicitMembers {α : Type} {key : RequestKey} {default : α}
    {read : Json → Checked α} (hread : ∀ v, read (explicitSection key.token v) = read v)
    (hmissing : key.token ∈ ["$roots", "$query"] → read (.arr []) = .ok default) :
    readSection (explicitMembers ms) key default read = readSection ms key default read := by
  rw [readSection, readSection, explicitMembers, List.lookup_append, Json.lookup_map]
  cases ms.lookup key.token with
  | some v => exact hread v
  | none =>
    cases h : (missingSections ms).lookup key.token with
    | none => rfl
    | some v =>
      rcases of_lookup_missingSections h with ⟨hkey, rfl⟩
      exact hmissing hkey

theorem lookup_data_explicitMembers :
    (explicitMembers ms).lookup RequestKey.data.token = ms.lookup RequestKey.data.token := by
  have hid : explicitSection RequestKey.data.token = id := rfl
  have hnone : (missingSections ms).lookup RequestKey.data.token = none := by
    apply Option.eq_none_iff_forall_ne_some.mpr
    intro v hv
    exact absurd (of_lookup_missingSections hv).1 (by decide)
  rw [explicitMembers, List.lookup_append, Json.lookup_map, hid, Option.map_id, hnone,
    Option.or_none, id]

/-- The added keys are keys of every kind of request, and they come last. -/
theorem checkKeys_explicitMembers (kind : RequestKind) :
    (explicitMembers ms).forM (fun m => checkKey kind m.1) =
      ms.forM fun m => checkKey kind m.1 := by
  have hmissing : forM (missingSections ms) (fun m => checkKey kind m.1) = .ok () := by
    rw [Checked.forM_eq_ok_iff]
    intro m hm
    rcases List.mem_map.mp hm with ⟨key, hkey, rfl⟩
    have hkey := List.mem_of_mem_filter hkey
    simp only [List.mem_cons, List.not_mem_nil, or_false] at hkey
    rcases hkey with rfl | rfl <;> cases kind <;> rfl
  simp only [List.forM_eq_forM]
  rw [explicitMembers, List.forM_append, List.forM_map, hmissing]
  exact bind_pure (forM ms fun m => checkKey kind m.1)

/-- A request and the same request written out in full have the same outcome: the same request, or
the same refusal. -/
theorem read_explicit_eq_read (kind : RequestKind) (limits : Limits) (v : Json) :
    read kind limits (explicit v) = read kind limits v := by
  cases v with
  | obj ms =>
    have hroots : readSection (explicitMembers ms) .roots [] readRoots =
        readSection ms .roots [] readRoots :=
      readSection_explicitMembers (fun _ => rfl) fun _ => rfl
    have hsteps : readSection (explicitMembers ms) .query [] readQuery =
        readSection ms .query [] readQuery :=
      readSection_explicitMembers readQuery_explicitQuery fun _ => rfl
    have hfilter : readSection (explicitMembers ms) .filter (defaultFilter limits)
          (readFilter limits) =
        readSection ms .filter (defaultFilter limits) (readFilter limits) := by
      apply readSection_explicitMembers
      · intro v
        exact congrArg (· >>= _) (sectionMembers_explicitOptions .filter v)
      · intro h
        exact absurd h (by decide)
    have hprojection : readSection (explicitMembers ms) .projection {} readProjection =
        readSection ms .projection {} readProjection := by
      apply readSection_explicitMembers
      · intro v
        exact congrArg (· >>= _) (sectionMembers_explicitOptions .projection v)
      · intro h
        exact absurd h (by decide)
    rw [explicit, read, read, checkKeys_explicitMembers, hroots, hsteps, hfilter, hprojection,
      lookup_data_explicitMembers]
  | _ => rfl

example : explicit (.obj [("$filter", .arr []), ("$query", .obj [("$exists", .str "Title"),
      ("$depth", .ofInt32 (-1)),
      ("$not", .arr [.obj [("$missing", .str "Title"), ("$isNull", .str "Title")]])])]) =
    .obj [("$filter", .obj []), ("$query", .arr [.obj [("$depth", .ofInt32 (-1)), ("$and", .arr [
      .single "$exists" (.str "Title"),
      .single "$not" (.arr [.single "$and" (.arr [.single "$missing" (.str "Title"),
        .single "$isNull" (.str "Title")])])])]]), ("$roots", .arr [])] := by
  decide +kernel

end ArchivalQuery.Request
