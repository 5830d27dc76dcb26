import ArchivalQuery.Plan.Compile
import ArchivalQuery.Proofs.Field.Names
import ArchivalQuery.Proofs.Json.Writes

/-! # Entries of sort and projection documents

Two entries collide if their fields have one stored name, be it that a reserved name stands next to
the name it is stored under, or that two configured names are the same.  The first entry of a name
then decides its place and the last one its value.
-/
namespace ArchivalQuery

/-- What the members of a document have to be, where entries with names and values go in. -/
structure Json.AccountFor {α : Type} (ms : List (String × Json)) (entries : List α)
    (name : α → String) (value : α → Json) : Prop where
  /-- The keys are the names, each where it first occurs. -/
  keys : ms.map Prod.fst = (entries.map name).eraseDups
  nodup : (ms.map Prod.fst).Nodup
  /-- Under a name stands the value of its last entry. -/
  values : ∀ key, ms.lookup key = (entries.filter fun e => name e = key).getLast?.map value
  /-- If no two entries collide, none is lost, repeated or moved. -/
  faithful : (entries.map name).Nodup → ms = entries.map fun e => (name e, value e)

/-- Entries that are written one after the other are accounted for. -/
theorem Json.accountFor_ofWrites {α : Type} (entries : List α) (name : α → String)
    (value : α → Json) :
    AccountFor (ofWrites (entries.map fun e => (name e, value e))) entries name value where
  keys := by
    rw [keys_ofWrites, List.map_map]
    rfl
  nodup := nodup_ofWrites _
  values key := by
    rw [lookup_ofWrites, List.filter_map, List.getLast?_map, Option.map_map]
    rfl
  faithful h := by
    apply ofWrites_of_nodup
    rwa [List.map_map]

def OrderBy.sign (k : OrderBy) : Json :=
  match k.direction with
  | .ascending => .num (.int 1 (by decide))
  | .descending => .num (.int (-1) (by decide))

def ProjectedField.flag (f : ProjectedField) : Json :=
  if f.included then .num (.int 1 (by decide)) else .num (.int 0 (by decide))

/-- Whether a projection includes all fields, wherever it says so. -/
def Projection.IncludesAll (p : Projection) : Prop :=
  ∃ f ∈ p.fields, f.field = "#all" ∧ f.included = true

def Projection.single (p : Projection) : List ProjectedField := p.fields.filter (·.field ≠ "#all")

theorem OrderBy.document_eq (a : Ancestry) (keys : List OrderBy) :
    document a keys = .obj (Json.ofWrites (keys.map fun k => (Field.mapped a k.field, k.sign))) := by
  unfold document
  congr 3
  funext k
  rw [Field.stored_eq_mapped]
  cases k with
  | mk field direction => cases direction <;> rfl

namespace Projection
variable {a : Ancestry} {p : Projection}

theorem any_all_iff :
    (p.fields.any fun f => f.included && (Field.storedName? a f.field).isNone) = true ↔
      p.IncludesAll := by
  rw [List.any_eq_true, IncludesAll]
  refine exists_congr fun f => and_congr_right fun _ => ?_
  rw [Bool.and_eq_true, Field.storedName?_eq_ite, and_comm]
  by_cases h : f.field = "#all" <;> simp [h, ReservedField.token]

/-- All fields together write nothing, the others their flag. -/
theorem filterMap_fields :
    (p.fields.filterMap fun f => (Field.storedName? a f.field).map fun name =>
      (name, Json.ofNat (if f.included then 1 else 0))) =
      p.single.map fun f => (Field.mapped a f.field, f.flag) := by
  rw [single, ← List.filterMap_eq_map', List.filterMap_filter]
  congr 1
  funext f
  have hflag : Json.ofNat (if f.included then 1 else 0) = f.flag := by
    unfold ProjectedField.flag
    cases f.included <;> rfl
  rw [Field.storedName?_eq_ite, Field.stored_eq_mapped, hflag]
  by_cases h : f.field = "#all" <;> simp [h, ReservedField.token]

theorem document_of_includesAll (h : p.IncludesAll) : p.document a = .obj [] :=
  if_pos (any_all_iff.mpr h)

theorem document_of_not_includesAll (h : ¬p.IncludesAll) :
    p.document a =
      .obj (Json.ofWrites (p.single.map fun f => (Field.mapped a f.field, f.flag))) := by
  rw [← filterMap_fields]
  exact if_neg (mt any_all_iff.mp h)

end Projection

/-- Sort and projection documents account for every entry, under all configured names: the keys are
the stored names of the entries, each where it first occurs, with the value of the last entry of
that name, and if no two names collide, the document is the list of the entries.  A projection that
includes all fields, wherever it says so, is empty; an entry that leaves out all fields writes
nothing. -/
theorem Plan.documents_account_for_entries (a : Ancestry) :
    (∀ keys, ∃ ms, OrderBy.document a keys = .obj ms ∧
      Json.AccountFor ms keys (fun k => Field.mapped a k.field) OrderBy.sign) ∧
    ∀ p : Projection,
      (p.IncludesAll → p.document a = .obj []) ∧
      (¬p.IncludesAll → ∃ ms, p.document a = .obj ms ∧
        Json.AccountFor ms p.single (fun f => Field.mapped a f.field) ProjectedField.flag) := by
  constructor
  · intro keys
    exact ⟨_, OrderBy.document_eq a keys, Json.accountFor_ofWrites keys _ _⟩
  · intro p
    constructor
    · exact Projection.document_of_includesAll
    · intro h
      exact ⟨_, Projection.document_of_not_includesAll h, Json.accountFor_ofWrites p.single _ _⟩

/-- A sort key under a reserved name and one under its stored name become one member, in the place
of the first and with the direction of the last; the others stay as they are. -/
theorem Plan.documents_account_for_minDepth :
    (∃ ms, OrderBy.document {}
        [⟨"#min", .ascending⟩, ⟨"Title", .ascending⟩, ⟨"_min", .descending⟩] = .obj ms ∧
      ms.map Prod.fst = ["_min", "Title"] ∧
      ms.lookup "_min" = some (.num (.int (-1) (by decide))) ∧
      ms.lookup "Title" = some (.num (.int 1 (by decide)))) ∧
    Projection.document {} ⟨[⟨"#id", true⟩, ⟨"#all", false⟩, ⟨"Title", false⟩], none⟩ =
      .obj [("_id", .num (.int 1 (by decide))), ("Title", .num (.int 0 (by decide)))] ∧
    Projection.document {} ⟨[⟨"#id", true⟩, ⟨"#all", true⟩, ⟨"Title", false⟩], none⟩ =
      .obj [] := by
  obtain ⟨hsort, hprojection⟩ := documents_account_for_entries {}
  refine ⟨?_, ?_, ?_⟩
  · obtain ⟨ms, hms, h⟩ :=
      hsort [⟨"#min", .ascending⟩, ⟨"Title", .ascending⟩, ⟨"_min", .descending⟩]
    refine ⟨ms, hms, h.keys.trans (by decide), ?_, ?_⟩
    · exact (h.values "_min").trans (by decide)
    · exact (h.values "Title").trans (by decide)
  · obtain ⟨ms, hms, h⟩ := (hprojection
      ⟨[⟨"#id", true⟩, ⟨"#all", false⟩, ⟨"Title", false⟩], none⟩).2
        (by unfold Projection.IncludesAll; decide)
    rw [hms, h.faithful (by decide)]
    rfl
  · apply (hprojection ⟨[⟨"#id", true⟩, ⟨"#all", true⟩, ⟨"Title", false⟩], none⟩).1
    unfold Projection.IncludesAll
    decide

end ArchivalQuery
