import ArchivalQuery.Proofs.Node.Refusals
import ArchivalQuery.Proofs.Request.Reading
import ArchivalQuery.Proofs.Request.Steps

/-! # What readers of requests refuse

The limits are tested before a request is read, and operators without a filter are found after it.
No reader refuses a request for either, whatever the value: it refuses for shapes, for unknown names
that the request holds, and for steps with two depths.
-/
namespace ArchivalQuery
open Checked (RefusesOnly)
open QueryError (Origin)

def QueryError.OfReader : QueryError → Prop
  | tooLarge _ | unsupported _ => False
  | _ => True

theorem QueryError.Origin.Admits.ofReader {o : Origin} {e : QueryError} (h : o.Admits e) :
    e.OfReader := by
  cases e with
  | tooLarge | unsupported => exact h.elim
  | _ => trivial

/-- The places of a refusal that is no conflict of depths. -/
def QueryError.Origin.unconflicted : Origin := ⟨fun _ => True, fun _ => True, fun _ => False⟩

theorem QueryError.Origin.ne_depthConflict {α : Type} {x : Checked α}
    (h : RefusesOnly unconflicted.Admits x) (i : Nat) : x ≠ .error (.depthConflict i) :=
  fun hx => h.reason _ hx

namespace Request

def PartHasKey (part : String) (v : Json) (key : String) : Prop :=
  ∃ ms w, v = .obj ms ∧ (part, w) ∈ ms ∧ w.HasKey key

/-- Whether a request names a field: in a step, as a sort key or as a projected field. -/
inductive NamesField : Json → String → Prop
  | step {v w : Json} {name : String} (hw : HasStep v w) (hname : Expression.HasField w name) :
      NamesField v name
  | sort {ms : List (String × Json)} {w : Json} {name : String}
      (hw : ms.lookup "$filter" = some w) (hname : PartHasKey "$orderby" w name) :
      NamesField (.obj ms) name
  | projection {ms : List (String × Json)} {w : Json} {name : String}
      (hw : ms.lookup "$projection" = some w) (hname : PartHasKey "$fields" w name) :
      NamesField (.obj ms) name

def origin (v : Json) : Origin where
  token t := ∃ w, HasStep v w ∧ Expression.HasToken w t
  field := NamesField v
  step _ := True

section Readers
variable {o : Origin}

theorem refuses_checkKey (kind : RequestKind) (key : String) :
    RefusesOnly o.Admits (checkKey kind key) := by
  unfold checkKey
  split
  · exact .ite (.ok _) (refuses_malformed _)
  · exact refuses_malformed _

theorem refuses_readRoots (v : Json) : RefusesOnly o.Admits (readRoots v) := by
  have root (v : Json) : RefusesOnly o.Admits (readRoot v) := by
    cases v with
    | str id => exact .ok id
    | _ => exact refuses_malformed _
  cases v with
  | arr vs => exact .mapM fun v _ => root v
  | _ => exact refuses_malformed _

theorem refuses_readQuery {q : Json} (h : ∀ w ∈ stepValues q, o.Covers w) (hstep : ∀ i, o.step i) :
    RefusesOnly o.Admits (readQuery q) := by
  obtain hq | ⟨-, hq⟩ := readQuery_cases q
  · rw [hq]
    exact .mapM fun p hp =>
      Step.refuses_read (h p.1 (List.fst_mem_of_mem_zipIdx hp)) fun _ => hstep p.2
  · rw [hq]
    exact refuses_malformed _

theorem refuses_sectionMembers (word : RequestKey) (v : Json) :
    RefusesOnly o.Admits (sectionMembers word v) := by
  unfold sectionMembers
  split
  · exact .ok _
  · exact .ok _
  · exact refuses_malformed _

theorem eq_obj_of_sectionMembers {word : RequestKey} {v : Json} {ms : List (String × Json)}
    (h : sectionMembers word v = .ok ms) {m : String × Json} (hm : m ∈ ms) : v = .obj ms := by
  unfold sectionMembers at h
  split at h
  · rw [Except.ok.inj h]
  · obtain rfl := Except.ok.inj h
    exact absurd hm List.not_mem_nil
  · exact absurd h Checked.malformed_ne_ok

theorem refuses_readNatural (key : FilterKey) (shape : Shape) (v : Json) :
    RefusesOnly o.Admits (readNatural key shape v) := by
  unfold readNatural
  split
  · exact .ok _
  · exact refuses_malformed _

theorem refuses_readHints (v : Json) : RefusesOnly o.Admits (readHints v) := by
  have hint (v : Json) : RefusesOnly o.Admits (readHint v) := by
    unfold readHint
    split
    · exact .ok _
    · exact refuses_malformed _
  cases v with
  | arr vs => exact (RefusesOnly.mapM fun v _ => hint v).bind fun _ => .pure _
  | _ => exact refuses_malformed _

theorem refuses_readOrder {v : Json} (h : ∀ name, v.HasKey name → o.field name) :
    RefusesOnly o.Admits (readOrder v) := by
  have key {p : String × Json} (hp : o.field p.1) : RefusesOnly o.Admits (readOrderBy p) := by
    refine (Field.refuses_check hp _).bind fun _ => ?_
    split
    · exact .pure _
    · exact .pure _
    · exact refuses_malformed _
  cases v with
  | obj ms => exact .mapM fun m hm => key (h m.1 ⟨ms, rfl, List.mem_map.mpr ⟨m, hm, rfl⟩⟩)
  | _ => exact refuses_malformed _

theorem refuses_readFilter {v : Json} (h : ∀ name, PartHasKey "$orderby" v name → o.field name)
    (limits : Limits) : RefusesOnly o.Admits (readFilter limits v) := by
  refine (refuses_sectionMembers ..).bind_of_ok fun ms hms => .foldlM (fun m hm f => ?_) _
  obtain rfl := eq_obj_of_sectionMembers hms hm
  unfold readFilterOption
  cases hkey : FilterKey.ofToken? m.1 with
  | none => exact refuses_malformed _
  | some key =>
    rw [FilterKey.ofToken?_eq_some_iff] at hkey
    cases key with
    | offset => exact (refuses_readNatural ..).bind fun _ => .pure _
    | limit =>
      exact .bind ((refuses_readNatural ..).bind fun _ => .ite (refuses_malformed _) (.pure _))
        fun _ => .pure _
    | hint => exact (refuses_readHints _).bind fun _ => .pure _
    | orderBy =>
      have hpart : (FilterKey.orderBy.token, m.2) ∈ ms := hkey ▸ hm
      exact (refuses_readOrder fun name hname => h name ⟨ms, m.2, rfl, hpart, hname⟩).bind
        fun _ => .pure _

theorem refuses_readProjectedFields {v : Json} (h : ∀ name, v.HasKey name → o.field name) :
    RefusesOnly o.Admits (readProjectedFields v) := by
  have field {p : String × Json} (hp : o.field p.1) :
      RefusesOnly o.Admits (readProjectedField p) := by
    refine (Field.refuses_check hp _).bind fun _ => ?_
    split
    · exact .pure _
    · split
      · exact .pure _
      · exact .pure _
      · exact refuses_malformed _
  cases v with
  | obj ms => exact .mapM fun m hm => field (h m.1 ⟨ms, rfl, List.mem_map.mpr ⟨m, hm, rfl⟩⟩)
  | _ => exact refuses_malformed _

theorem refuses_readProjection {v : Json}
    (h : ∀ name, PartHasKey "$fields" v name → o.field name) :
    RefusesOnly o.Admits (readProjection v) := by
  have usage (v : Json) : RefusesOnly o.Admits (readUsage v) := by
    cases v with
    | str s => exact .ok s
    | _ => exact refuses_malformed _
  refine (refuses_sectionMembers ..).bind_of_ok fun ms hms => .foldlM (fun m hm q => ?_) _
  obtain rfl := eq_obj_of_sectionMembers hms hm
  unfold readProjectionOption
  cases hkey : ProjectionKey.ofToken? m.1 with
  | none => exact refuses_malformed _
  | some key =>
    rw [ProjectionKey.ofToken?_eq_some_iff] at hkey
    cases key with
    | fields =>
      have hpart : (ProjectionKey.fields.token, m.2) ∈ ms := hkey ▸ hm
      exact (refuses_readProjectedFields fun name hname =>
        h name ⟨ms, m.2, rfl, hpart, hname⟩).bind fun _ => .pure _
    | usage => exact (usage _).bind fun _ => .pure _

theorem refuses_readData (kind : RequestKind) (v : Option Json) :
    RefusesOnly o.Admits (readData kind v) := by
  refine .ite ?_ (.ok _)
  split
  · exact .ok _
  · exact refuses_malformed _
  · exact refuses_malformed _

theorem refuses_readSection {α : Type} (ms : List (String × Json)) (key : RequestKey)
    {read : Json → Checked α}
    (h : ∀ v, ms.lookup key.token = some v → RefusesOnly o.Admits (read v)) (default : α) :
    RefusesOnly o.Admits (readSection ms key default read) := by
  unfold readSection
  split
  · exact h _ ‹_›
  · exact .ok _

/-- What is read after the steps. -/
theorem refuses_afterSteps (ms : List (String × Json))
    (h : ∀ name, NamesField (.obj ms) name → o.field name) (kind : RequestKind) (limits : Limits)
    (roots : List String) (steps : List Step) : RefusesOnly o.Admits (do
      let filter ← readSection ms .filter (defaultFilter limits) (readFilter limits)
      let projection ← readSection ms .projection {} readProjection
      let data ← readData kind (ms.lookup RequestKey.data.token)
      return { kind, roots, steps, filter, projection, data : Request }) :=
  (refuses_readSection ms .filter (fun _ hv => refuses_readFilter (fun name hname =>
      h name (.sort hv hname)) limits) _).bind fun _ =>
    (refuses_readSection ms .projection (fun _ hv => refuses_readProjection fun name hname =>
      h name (.projection hv hname)) _).bind fun _ =>
    (refuses_readData ..).bind fun _ => .pure _

end Readers

/-- A refusal comes from the request. -/
theorem refuses_read_origin (kind : RequestKind) (limits : Limits) (v : Json) :
    RefusesOnly (origin v).Admits (read kind limits v) := by
  cases v with
  | obj ms =>
    have hcovers (q : Json) (hq : ms.lookup "$query" = some q) :
        ∀ w ∈ stepValues q, (origin (.obj ms)).Covers w := by
      intro w hw
      have hstep : HasStep (.obj ms) w := ⟨ms, q, rfl, hq, hw⟩
      exact ⟨fun t ht => ⟨w, hstep, ht⟩, fun name hname => .step hstep hname⟩
    exact (RefusesOnly.forM fun _ _ => refuses_checkKey ..).bind fun _ =>
      (refuses_readSection ms .roots (fun v _ => refuses_readRoots v) _).bind fun roots =>
      (refuses_readSection ms .query (fun q hq =>
        refuses_readQuery (hcovers q hq) fun _ => trivial) _).bind fun steps =>
      refuses_afterSteps ms (fun _ hname => hname) kind limits roots steps
  | _ => exact refuses_malformed _

/-- A reader never finds a request too large, and never finds an operator unsupported. -/
theorem refuses_read (kind : RequestKind) (limits : Limits) (v : Json) :
    RefusesOnly QueryError.OfReader (read kind limits v) :=
  (refuses_read_origin kind limits v).mono fun _ => Origin.Admits.ofReader

end Request
end ArchivalQuery
