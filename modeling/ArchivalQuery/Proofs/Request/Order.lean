import ArchivalQuery.Plan.Compile
import ArchivalQuery.Proofs.Node.Order
import ArchivalQuery.Proofs.Request.Sections

/-! # The order of keys in requests

The keys of a request and of its two option sections stand in any order, besides those of its steps
and expressions that do.  In whatever order they stand, the request that is read and its plan are
the same.
-/
namespace ArchivalQuery.Request
open Grammar
open Checked (AcceptsAs)

inductive QueryReordered : Json → Json → Prop
  | step {v w : Json} (h : Step.Reordered v w) : QueryReordered v w
  | steps {vs ws : List Json} (h : List.Forall₂ Step.Reordered vs ws) :
      QueryReordered (.arr vs) (.arr ws)

/-- The value of one key of a request: the steps of its query, or the members of an option section,
may be reordered. -/
inductive SectionReordered (key : String) : Json → Json → Prop
  | same (v : Json) : SectionReordered key v v
  | query {v w : Json} (hkey : key = "$query") (h : QueryReordered v w) : SectionReordered key v w
  | options {v w : Json} (hkey : key ∈ ["$filter", "$projection"]) (h : v.Reordered w) :
      SectionReordered key v w

/-- Requests with the same keys in any order, each with reordered values. -/
inductive Reordered : Json → Json → Prop
  | same (v : Json) : Reordered v v
  | members {ls ms ns : List (String × Json)}
      (h : List.Forall₂ (fun l m => l.1 = m.1 ∧ SectionReordered l.1 l.2 m.2) ls ms)
      (hperm : ms.Perm ns) : Reordered (.obj ls) (.obj ns)

theorem mapM_zipIdx_read_of_reordered {vs ws : List Json} (hvs : ∀ v ∈ vs, v.Distinct)
    (h : List.Forall₂ Step.Reordered vs ws) (index : Nat) :
    AcceptsAs ((vs.zipIdx index).mapM fun p => Step.read p.2 p.1)
      ((ws.zipIdx index).mapM fun p => Step.read p.2 p.1) := by
  induction h generalizing index with
  | nil => exact .refl _
  | cons h _ ih =>
    rw [List.forall_mem_cons] at hvs
    rw [List.zipIdx_cons, List.zipIdx_cons, List.mapM_cons, List.mapM_cons]
    exact (h.acceptsAs hvs.1 index).bind fun s =>
      (ih hvs.2 (index + 1)).bind_left fun ss => pure (s :: ss)

theorem readQuery_of_reordered {v w : Json} (hv : v.Distinct) (h : QueryReordered v w) :
    AcceptsAs (readQuery v) (readQuery w) := by
  cases h with
  | steps h => exact mapM_zipIdx_read_of_reordered (fun _ => hv.item) h 0
  | step h =>
    have hstep := (h.acceptsAs hv 0).bind_left fun s => pure [s]
    cases h with
    | same => exact .refl _
    | members => exact hstep

section Options
variable {limits : Limits} {ms ns : List (String × Json)} (hms : (ms.map Prod.fst).Nodup)
  (h : ms.Perm ns)
include hms h

theorem optionsOf_of_perm {f : FilterSection} (hf : OptionsOf limits ms f) :
    OptionsOf limits ns f where
  keys m hm := hf.keys m (h.mem_iff.mpr hm)
  offset := (Json.gives_iff_of_perm hms h).mp hf.offset
  limit := (Json.gives_iff_of_perm hms h).mp hf.limit
  hints := (Json.gives_iff_of_perm hms h).mp hf.hints
  orderBy := (Json.gives_iff_of_perm hms h).mp hf.orderBy

theorem projectionParts_of_perm {p : Projection} (hp : ProjectionParts ms p) :
    ProjectionParts ns p where
  keys m hm := hp.keys m (h.mem_iff.mpr hm)
  fields := (Json.gives_iff_of_perm hms h).mp hp.fields
  usage := (Json.gives_iff_of_perm hms h).mp hp.usage

end Options

theorem readFilter_of_reordered {limits : Limits} {v w : Json} (hv : v.Distinct)
    (h : v.Reordered w) : AcceptsAs (readFilter limits v) (readFilter limits w) := by
  cases h with
  | same => exact .refl _
  | members h =>
    exact Json.foldlM_acceptsAs_of_perm foldlM_readFilterOption_eq_ok_iff optionsOf_of_perm
      hv.nodup h

theorem readProjection_of_reordered {v w : Json} (hv : v.Distinct) (h : v.Reordered w) :
    AcceptsAs (readProjection v) (readProjection w) := by
  cases h with
  | same => exact .refl _
  | members h =>
    exact Json.foldlM_acceptsAs_of_perm foldlM_readProjectionOption_eq_ok_iff
      projectionParts_of_perm hv.nodup h

section Members
variable {ls ms ns : List (String × Json)}
  (h : List.Forall₂ (fun l m => l.1 = m.1 ∧ SectionReordered l.1 l.2 m.2) ls ms)
include h

theorem keys_of_reordered : ls.map Prod.fst = ms.map Prod.fst := by
  rw [← List.forall₂_eq_eq_eq, List.forall₂_map_left_iff, List.forall₂_map_right_iff]
  exact h.imp fun _ _ hlm => hlm.1

theorem lookup_of_reordered (key : String) :
    Option.Rel (SectionReordered key) (ls.lookup key) (ms.lookup key) := by
  induction h with
  | nil => exact .none
  | @cons l m ls ms hlm _ ih =>
    rcases l with ⟨k, v⟩
    rcases m with ⟨k', w⟩
    rcases hlm with ⟨hk, hvw⟩
    obtain rfl : k = k' := hk
    by_cases hkey : key = k
    · subst hkey
      rw [List.lookup_cons_self, List.lookup_cons_self]
      exact .some hvw
    · rw [Json.lookup_cons_of_ne hkey, Json.lookup_cons_of_ne hkey]
      exact ih

end Members

/-- A section is accepted as a reordered one, if its reader does not look at the order. -/
theorem readSection_of_reordered {α : Type} {ls ns : List (String × Json)} {key : RequestKey}
    {default : α} {read : Json → Checked α} (hls : (Json.obj ls).Distinct)
    (h : Option.Rel (SectionReordered key.token) (ls.lookup key.token) (ns.lookup key.token))
    (hread : ∀ v w, v.Distinct → SectionReordered key.token v w →
      AcceptsAs (read v) (read w)) :
    AcceptsAs (readSection ls key default read) (readSection ns key default read) := by
  have hdistinct : ∀ v, ls.lookup key.token = some v → v.Distinct := fun v hv =>
    hls.member ((Json.lookup_eq_some_iff_mem hls.nodup).mp hv)
  rw [readSection, readSection]
  generalize ls.lookup key.token = o at h hdistinct
  generalize ns.lookup key.token = o' at h
  cases h with
  | none => exact .refl _
  | some hvw => exact hread _ _ (hdistinct _ rfl) hvw

theorem SectionReordered.eq {key : String} {v w : Json} (h : SectionReordered key v w)
    (hkey : key ∉ ["$query", "$filter", "$projection"]) : v = w := by
  rw [List.mem_cons, not_or] at hkey
  cases h with
  | same => rfl
  | query hquery => exact absurd hquery hkey.1
  | options hoptions => exact absurd hoptions hkey.2

theorem SectionReordered.query_of {v w : Json} (h : SectionReordered "$query" v w) :
    QueryReordered v w := by
  cases h with
  | same => exact .step (.same v)
  | query _ h => exact h
  | options hkey => exact absurd hkey (by decide)

theorem SectionReordered.options_of {key : String} {v w : Json} (h : SectionReordered key v w)
    (hkey : key ≠ "$query") : v.Reordered w := by
  cases h with
  | same => exact .same v
  | query hquery => exact absurd hquery hkey
  | options _ h => exact h

theorem checkKeys_of_perm {ls ns : List (String × Json)} (kind : RequestKind)
    (h : (ls.map Prod.fst).Perm (ns.map Prod.fst)) :
    AcceptsAs (ls.forM fun l => checkKey kind l.1) (ns.forM fun n => checkKey kind n.1) := by
  have hkeys (ms : List (String × Json)) (u : Unit) : (ms.forM fun m => checkKey kind m.1) = .ok u ↔
      ∀ key ∈ ms.map Prod.fst, checkKey kind key = .ok () := by
    rw [List.forM_eq_forM, List.forall_mem_map]
    exact Checked.forM_eq_ok_iff
  refine .of_iff (hkeys ls) (hkeys ns) fun _ => ?_
  exact forall_congr' fun key => imp_congr_left h.mem_iff

/-- Reordered requests are accepted alike, as the same request. -/
theorem Reordered.acceptsAs {v w : Json} (h : Reordered v w) (hv : v.Distinct)
    (kind : RequestKind) (limits : Limits) :
    AcceptsAs (read kind limits v) (read kind limits w) := by
  cases h with
  | same => exact .refl _
  | @members ls ms ns h hperm =>
    have hms : (ms.map Prod.fst).Nodup := keys_of_reordered h ▸ hv.nodup
    have hkeys : (ls.map Prod.fst).Perm (ns.map Prod.fst) :=
      keys_of_reordered h ▸ hperm.map Prod.fst
    have hlookup (key : String) :
        Option.Rel (SectionReordered key) (ls.lookup key) (ns.lookup key) := by
      rw [← Json.lookup_eq_of_perm hms hperm]
      exact lookup_of_reordered h key
    have hroots : AcceptsAs (readSection ls .roots [] readRoots)
        (readSection ns .roots [] readRoots) :=
      readSection_of_reordered hv (hlookup _) fun v _ _ h => h.eq (by decide) ▸ .refl (readRoots v)
    have hsteps : AcceptsAs (readSection ls .query [] readQuery)
        (readSection ns .query [] readQuery) :=
      readSection_of_reordered hv (hlookup _) fun _ _ hv h => readQuery_of_reordered hv h.query_of
    have hfilter : AcceptsAs (readSection ls .filter (defaultFilter limits) (readFilter limits))
        (readSection ns .filter (defaultFilter limits) (readFilter limits)) :=
      readSection_of_reordered hv (hlookup _) fun _ _ hv h =>
        readFilter_of_reordered hv (h.options_of (by decide))
    have hprojection : AcceptsAs (readSection ls .projection {} readProjection)
        (readSection ns .projection {} readProjection) :=
      readSection_of_reordered hv (hlookup _) fun _ _ hv h =>
        readProjection_of_reordered hv (h.options_of (by decide))
    have hdata : ls.lookup RequestKey.data.token = ns.lookup RequestKey.data.token := by
      have hrel := hlookup RequestKey.data.token
      revert hrel
      generalize ls.lookup RequestKey.data.token = o
      generalize ns.lookup RequestKey.data.token = o'
      rintro (h | _)
      · rw [h.eq (by decide)]
      · rfl
    rw [read, read, hdata]
    exact (checkKeys_of_perm kind hkeys).bind fun _ => hroots.bind fun _ => hsteps.bind fun _ =>
      hfilter.bind fun _ => hprojection.bind_left _

/-- If the keys of a request, of its two option sections, of bounds and of similarity searches stand
in another order, and the modifiers of steps in other places, then the same request is accepted, and
it has the same plan, down to the order of the keys of its filters. -/
theorem read_and_compile_reordered_iff (kind : RequestKind) (limits : Limits) {v w : Json}
    (hv : v.Distinct) (h : Reordered v w) :
    (∀ r, read kind limits v = .ok r ↔ read kind limits w = .ok r) ∧
      ∀ (a : Ancestry) (c : Collection) (p : Plan),
        read kind limits v >>= compile a c = .ok p ↔
          read kind limits w >>= compile a c = .ok p := by
  have hread := h.acceptsAs hv kind limits
  constructor
  · exact hread
  · intro a c
    exact hread.bind_left (compile a c)

theorem read_and_compile_reordered_iff_moved_depth :
    let s : Json := .obj [("$exists", .str "Title"), ("$depth", .ofInt32 2),
      ("$range", .single "Year" (.obj [("$gte", .ofInt32 1), ("$lt", .ofInt32 9)]))]
    let t : Json := .obj [("$depth", .ofInt32 2), ("$exists", .str "Title"),
      ("$range", .single "Year" (.obj [("$lt", .ofInt32 9), ("$gte", .ofInt32 1)]))]
    let v : Json := .obj [("$query", .arr [s]),
      ("$filter", .obj [("$offset", .ofInt32 1), ("$limit", .ofInt32 5)])]
    let w : Json := .obj [("$filter", .obj [("$limit", .ofInt32 5), ("$offset", .ofInt32 1)]),
      ("$query", .arr [t])]
    v.Distinct ∧ Reordered v w ∧ ∃ r p, read .select {} v = .ok r ∧ read .select {} w = .ok r ∧
      read .select {} v >>= compile {} .units = .ok p ∧
      read .select {} w >>= compile {} .units = .ok p := by
  intro s t v w
  have hv : v.Distinct := by
    simp [v, s, Json.Distinct, Json.ItemsDistinct, Json.MembersDistinct, Json.single, Json.ofInt32]
  have hstep : Step.Reordered s t := by
    refine .members (.refl _) (.cons (.same _ _) (.cons (.range ?_) .nil))
    exact .cons ⟨rfl, .members (.swap _ _ [])⟩ .nil
  have hvw : Reordered v w := by
    refine .members ?_ (.swap _ _ [])
    refine .cons ⟨rfl, .query rfl (.steps (.cons hstep .nil))⟩ (.cons ⟨rfl, ?_⟩ .nil)
    exact .options (by decide) (.members (.swap _ _ []))
  obtain ⟨hread, hcompile⟩ := read_and_compile_reordered_iff .select {} hv hvw
  exact ⟨hv, hvw, _, _, rfl, (hread _).mp rfl, rfl, (hcompile {} .units _).mp rfl⟩

end ArchivalQuery.Request
