import ArchivalQuery.Proofs.Node.Form
import ArchivalQuery.Proofs.Node.Writable
import ArchivalQuery.Proofs.Plan.Refusal
import ArchivalQuery.Proofs.Request.Entry
import ArchivalQuery.Request.Form

/-! # Requests that are read back

The record of a request is read back as the request if its trees are kept and its data is not null.
This holds of the requests that are read, and of those that come from a record.
-/
namespace ArchivalQuery
open Json (record Draft Lossless)

theorem RequestKind.ofDraft?_token (k : RequestKind) : ofDraft? (.str k.token) = some k := by
  cases k <;> rfl

theorem OrderBy.lossless (k : OrderBy) : Lossless OrderBy.toJson OrderBy.ofDraft? k := by
  have hdirection : Draft.word? Direction.all Direction.label (.str k.direction.label) =
      some k.direction := by
    cases k.direction <;> rfl
  refine Json.lossless_of_record rfl (by simp) (by simp) fun d hfields => ?_
  simp only [List.map_cons, List.map_nil, Option.map_some] at hfields
  simp [ofDraft?, hfields, hdirection]

theorem Hint.list?_listToJson (hints : List Hint) :
    (Hint.listToJson hints).draft.list? Hint.ofDraft? = some hints := by
  rw [listToJson, Json.ofStrings, List.map_map, Json.draft_arr, List.map_map]
  refine Json.mapM_map_eq_some fun h _ => ?_
  cases h <;> rfl

theorem Hint.distinct_listToJson (hints : List Hint) : (Hint.listToJson hints).Distinct :=
  Json.distinct_ofStrings _

theorem FilterSection.lossless (f : FilterSection) :
    Lossless FilterSection.toJson FilterSection.ofDraft? f := by
  have horder := Lossless.list fun k (_ : k ∈ f.orderBy) => k.lossless
  refine Json.lossless_of_record rfl (by simp) ?_ fun d hfields => ?_
  · simp [Hint.distinct_listToJson, horder.distinct]
  · simp only [List.map_cons, List.map_nil, Option.map_some] at hfields
    simp [ofDraft?, hfields, Draft.view?_ofUInt64, Hint.list?_listToJson, horder.read_write]

theorem ProjectedField.lossless (f : ProjectedField) :
    Lossless ProjectedField.toJson ProjectedField.ofDraft? f := by
  refine Json.lossless_of_record rfl (by simp) (by simp) fun d hfields => ?_
  simp only [List.map_cons, List.map_nil, Option.map_some] at hfields
  simp [ofDraft?, hfields, Json.draft]

/-- A usage is read back, and so is that there is none. -/
theorem Json.Draft.optional?_str (o : Option String) :
    Draft.optional? (Draft.view? Json.str?) ((o.map Json.str).map Json.draft) = some o :=
  Draft.optional?_map fun _ _ => ⟨rfl, nofun⟩

theorem Projection.lossless (p : Projection) :
    Lossless Projection.toJson Projection.ofDraft? p := by
  have hlist := Lossless.list fun f (_ : f ∈ p.fields) => f.lossless
  refine Json.lossless_of_record rfl (by simp) (by simp [hlist.distinct]) fun d hfields => ?_
  simp only [List.map_cons, List.map_nil, Option.map_some] at hfields
  simp [ofDraft?, hfields, hlist.read_write, Draft.optional?_str, -Option.map_map]

namespace Request

structure Kept (r : Request) : Prop where
  steps : ∀ s ∈ r.steps, s.node.Kept
  data : Json.Kept r.data

theorem Kept.lossless {r : Request} (hr : r.Kept) : Lossless toJson ofDraft? r := by
  have hsteps := Lossless.list fun s hs => Step.lossless (hr.steps s hs)
  refine Json.lossless_of_record rfl (by simp) ?_ fun d hfields => ?_
  · simpa [Json.distinct_ofStrings, hsteps.distinct, r.filter.lossless.distinct,
      r.projection.lossless.distinct] using fun v hv => (hr.data v hv).1
  · simp only [List.map_cons, List.map_nil, Option.map_some] at hfields
    simp [ofDraft?, hfields, RequestKind.ofDraft?_token, Draft.view?_ofStrings, hsteps.read_write,
      r.filter.lossless.read_write, r.projection.lossless.read_write,
      Draft.optional?_value hr.data]

theorem kept_of_ofDraft? {d : Draft} {r : Request} (h : ofDraft? d = some r) : r.Kept := by
  rcases Option.bind_eq_some_iff.mp h with ⟨fs, -, h⟩
  split at h
  · simp only [Option.bind_eq_bind, Option.bind_eq_some_iff, Option.pure_def,
      Option.some.injEq] at h
    rcases h with ⟨kind, -, roots, -, steps, hsteps, f, -, p, -, data, hdata, rfl⟩
    refine ⟨fun s hs => ?_, Json.kept_of_optional? hdata⟩
    rcases Draft.exists_of_mem_list? hsteps hs with ⟨d, hd⟩
    exact Step.kept_of_ofDraft? hd
  · cases h

theorem kept_of_readData {kind : RequestKind} {v data : Option Json}
    (hv : ∀ w, v = some w → w.Distinct) (h : readData kind v = .ok data) : Json.Kept data := by
  unfold readData at h
  split at h
  · split at h
    · cases h
      rintro w ⟨⟩
      exact ⟨hv _ rfl, nofun⟩
    · exact absurd h Checked.malformed_ne_ok
    · exact absurd h Checked.malformed_ne_ok
  · cases h
    exact nofun

/-- A request that is read is kept: its trees are writable, and its data is an object. -/
theorem kept_of_read {kind : RequestKind} {limits : Limits} {v : Json} (hv : v.Distinct)
    {r : Request} (h : read kind limits v = .ok r) : r.Kept := by
  have hsteps (s : Step) (hs : s ∈ r.steps) : s.node.Kept := by
    rcases exists_read_of_mem_steps h hs with ⟨index, w, hw⟩
    exact (Step.read_writable hw).kept
  refine ⟨hsteps, ?_⟩
  unfold read at h
  split at h
  · simp only [Checked.bind_eq_ok, Checked.pure_eq_ok] at h
    rcases h with ⟨_, -, ids, -, ss, -, f, -, p, -, data, hdata, rfl⟩
    refine kept_of_readData (fun w hw => ?_) hdata
    exact hv.member ((Json.lookup_eq_some_iff_mem hv.nodup).mp hw)
  · exact absurd h Checked.malformed_ne_ok

/-- The requests that there are: the reader returns them, or they come from a record; later they may
get other roots. -/
inductive Obtained : Request → Prop
  | ofText {kind : RequestKind} {limits : Limits} {text : String} {r : Request}
      (h : ofText kind limits text = .ok r) : Obtained r
  | ofValue {kind : RequestKind} {limits : Limits} {v : Json} (hv : v.Distinct) {r : Request}
      (h : ofValue kind limits v = .ok r) : Obtained r
  | ofRecord {d : Draft} {r : Request} (h : ofDraft? d = some r) : Obtained r
  | resetRoots {r : Request} (hr : Obtained r) (roots : List String) : Obtained (r.resetRoots roots)

theorem Obtained.kept {r : Request} (hr : r.Obtained) : r.Kept := by
  induction hr with
  | ofText h =>
    rcases Checked.bind_eq_ok.mp h with ⟨v, hv, hread⟩
    rcases Option.bind_eq_some_iff.mp (decode_eq_ok_iff.mp hv).2.2 with ⟨d, -, hvalue⟩
    exact kept_of_read (Draft.distinct_of_value? hvalue) hread
  | ofValue hv h => exact kept_of_read hv (Checked.bind_unit_eq_ok.mp h).2
  | ofRecord h => exact kept_of_ofDraft? h
  | resetRoots _ _ ih => exact ⟨ih.steps, ih.data⟩

/-- Whether no part that may be absent is there as null. -/
structure NullFree (r : Request) : Prop where
  data : r.data ≠ some .null
  bounds {s : Step} (hs : s ∈ r.steps) {field : String} {b : Bounds}
    (hb : .range field b ∈ s.node.subtrees) (p : Comparison × Json) (hp : p ∈ b.toList) :
    p.2 ≠ .null

theorem Kept.nullFree {r : Request} (hr : r.Kept) : r.NullFree where
  data hnull := (hr.data .null hnull).2 rfl
  bounds hs _ b hrange p hp := by
    cases (hr.steps _ hs).subtree hrange with
    | range hb => exact (Bounds.kept_iff.mp hb p hp).2

end Request
end ArchivalQuery
