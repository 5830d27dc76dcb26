import ArchivalQuery.Proofs.Json.Drafts
import ArchivalQuery.Proofs.Json.Integers

/-! # Records that are read back

The fields of a record are found again by their names, those that were left out as absent.  Parts of
records are read back from what is written for them.
-/
namespace ArchivalQuery.Json

/-- Whether something is written as a value without repeated keys, and read back from it. -/
structure Lossless {α : Type} (write : α → Json) (read : Draft → Option α) (x : α) : Prop where
  distinct : (write x).Distinct
  read_write : read (write x).draft = some x

/-- Whether what is written of something that was read is a form that does not change any more. -/
def Stable {α : Type} (write : α → Json) (read : Draft → Option α) : Prop :=
  ∀ d v, (read d).map write = some v → (read v.draft).map write = some v

theorem stable_of_lossless {α : Type} {write : α → Json} {read : Draft → Option α}
    (h : ∀ d x, read d = some x → Lossless write read x) : Stable write read := by
  intro d v hv
  rcases Option.map_eq_some_iff.mp hv with ⟨x, hx, rfl⟩
  rw [(h d x hx).read_write, Option.map_some]

@[simp] theorem distinct_null : null.Distinct := trivial

@[simp] theorem distinct_bool (b : Bool) : (bool b).Distinct := trivial

@[simp] theorem distinct_str (s : String) : (str s).Distinct := trivial

@[simp] theorem distinct_ofInt32 (n : Int32) : (ofInt32 n).Distinct := trivial

@[simp] theorem distinct_ofUInt32 (n : UInt32) : (ofUInt32 n).Distinct :=
  distinct_of_isScalar (isScalar_ofUInt32 n)

@[simp] theorem distinct_ofUInt64 (n : UInt64) : (ofUInt64 n).Distinct :=
  distinct_of_isScalar (isScalar_ofNat n.toNat_lt)

namespace Draft

theorem filter_eq_nil_of_notMem {name : String} {ms : List (String × Draft)}
    (h : name ∉ ms.map Prod.fst) : (ms.filter fun m => m.1 == name) = [] := by
  rw [List.filter_eq_nil_iff]
  intro m hm heq
  exact h (List.mem_map.mpr ⟨m, hm, eq_of_beq heq⟩)

theorem member?_of_notMem {name : String} {ms : List (String × Draft)}
    (h : name ∉ ms.map Prod.fst) : member? name ms = some none := by
  rw [member?, filter_eq_nil_of_notMem h]

theorem member?_of_mem {name : String} {d : Draft} {ms : List (String × Draft)}
    (hms : (ms.map Prod.fst).Nodup) (h : (name, d) ∈ ms) : member? name ms = some (some d) := by
  have hone : (ms.filter fun m => m.1 == name) = [(name, d)] := by
    induction ms with
    | nil => exact absurd h List.not_mem_nil
    | cons m ms ih =>
      rw [List.map_cons, List.nodup_cons] at hms
      rcases List.mem_cons.mp h with rfl | hmem
      · rw [List.filter_cons_of_pos (by simp), filter_eq_nil_of_notMem hms.1]
      · have hne : m.1 ≠ name := by
          rintro rfl
          exact hms.1 (List.mem_map.mpr ⟨_, hmem, rfl⟩)
        rw [List.filter_cons_of_neg (by simpa using hne), ih hms.2 hmem]
  rw [member?, hone]

end Draft

section Records
variable {fields : List (String × Option Json)}

theorem mem_record_iff {name : String} {v : Json} :
    (name, v) ∈ fields.filterMap (fun f => f.2.map (f.1, ·)) ↔ (name, some v) ∈ fields := by
  simp [List.mem_filterMap]

theorem nodup_record (hnames : (fields.map Prod.fst).Nodup) :
    ((fields.filterMap fun f => f.2.map (f.1, ·)).map Prod.fst).Nodup := by
  refine hnames.sublist ?_
  induction fields with
  | nil => exact List.Sublist.refl []
  | cons f fields ih =>
    rw [List.map_cons, List.nodup_cons] at hnames
    rw [List.filterMap_cons]
    cases f.2 with
    | none => exact (ih hnames.2).cons f.1
    | some v => exact (ih hnames.2).cons_cons f.1

/-- A record of values without repeated keys repeats none. -/
theorem distinct_record (hnames : (fields.map Prod.fst).Nodup)
    (hvalues : ∀ f ∈ fields, ∀ v, f.2 = some v → v.Distinct) : (record fields).Distinct := by
  refine distinct_obj_iff.mpr ⟨nodup_record hnames, fun m hm => ?_⟩
  exact hvalues _ (mem_record_iff.mp hm) m.2 rfl

theorem member?_record (hnames : (fields.map Prod.fst).Nodup) {name : String} {o : Option Json}
    (h : (name, o) ∈ fields) :
    Draft.member? name ((fields.filterMap fun f => f.2.map (f.1, ·)).map fun m =>
      (m.1, m.2.draft)) = some (o.map draft) := by
  have hdrafts (ms : List (String × Json)) :
      (ms.map fun m => (m.1, m.2.draft)).map Prod.fst = ms.map Prod.fst := by
    rw [List.map_map]
    rfl
  cases o with
  | none =>
    refine Draft.member?_of_notMem ?_
    rw [hdrafts, List.mem_map]
    rintro ⟨m, hm, rfl⟩
    have heq := List.inj_on_of_nodup_map hnames h (mem_record_iff.mp hm) rfl
    cases congrArg Prod.snd heq
  | some v =>
    refine Draft.member?_of_mem ?_ (List.mem_map.mpr ⟨(name, v), mem_record_iff.mpr h, rfl⟩)
    rw [hdrafts]
    exact nodup_record hnames

/-- Fields of a record that are asked for by name are there or absent as they were written. -/
theorem fields?_record (hnames : (fields.map Prod.fst).Nodup)
    {asked : List (String × Option Json)} (hasked : ∀ f ∈ asked, f ∈ fields) :
    (record fields).draft.fields? (asked.map Prod.fst) =
      some (asked.map fun f => f.2.map draft) := by
  rw [record, draft_obj, Draft.fields?]
  induction asked with
  | nil => rfl
  | cons f asked ih =>
    rw [List.forall_mem_cons] at hasked
    rw [List.map_cons, List.map_cons]
    exact mapM_cons_eq_some_iff.mpr
      ⟨_, _, member?_record hnames hasked.1, ih hasked.2, rfl⟩

/-- A record that has a tag is a variant. -/
theorem variant?_record (hnames : (fields.map Prod.fst).Nodup) {tag label : String}
    (h : (tag, some (str label)) ∈ fields) :
    (record fields).draft.variant? tag = some (label, (record fields).draft) := by
  have hmember := member?_record hnames h
  have hsound := sound_draft (record fields)
  rw [record, draft_obj] at hsound ⊢
  simp [Draft.variant?, hsound, hmember]

section Lossless
variable {α : Type} {write : α → Json} {read : Draft → Option α} {x : α}

/-- A record is read back if it can be told from its fields. -/
theorem lossless_of_record (hwrite : write x = record fields)
    (hnames : (fields.map Prod.fst).Nodup)
    (hvalues : ∀ f ∈ fields, ∀ v, f.2 = some v → v.Distinct)
    (hread : ∀ d : Draft, d.fields? (fields.map Prod.fst) =
      some (fields.map fun f => f.2.map draft) → read d = some x) : Lossless write read x := by
  constructor
  · rw [hwrite]
    exact distinct_record hnames hvalues
  · rw [hwrite]
    exact hread _ (fields?_record hnames fun _ => id)

/-- A variant is read back if it can be told from its tag and its fields. -/
theorem lossless_of_variant {tag label : String}
    (hwrite : write x = record ((tag, some (str label)) :: fields))
    (hnames : (((tag, some (str label)) :: fields).map Prod.fst).Nodup)
    (hvalues : ∀ f ∈ fields, ∀ v, f.2 = some v → v.Distinct)
    (hread : ∀ d : Draft, d.variant? tag = some (label, d) →
      d.fields? (fields.map Prod.fst) = some (fields.map fun f => f.2.map draft) →
        read d = some x) : Lossless write read x := by
  have hlabel : ∀ v, some (str label) = some v → v.Distinct := by
    rintro _ ⟨⟩
    exact distinct_str label
  constructor
  · rw [hwrite]
    exact distinct_record hnames (List.forall_mem_cons.mpr ⟨hlabel, hvalues⟩)
  · rw [hwrite]
    exact hread _ (variant?_record hnames List.mem_cons_self)
      (fields?_record hnames fun _ => List.mem_cons_of_mem _)

end Lossless

end Records

namespace Draft
variable {α : Type} {read : Draft → Option α} {write : α → Json}

theorem view?_draft {v : Json} (hv : v.Distinct) (view : Json → Option α) :
    v.draft.view? view = view v := by
  rw [view?, hv.value?_draft, Option.bind_some]

/-- The items of an array that is read repeat no keys. -/
theorem distinct_of_view?_arr? {d : Draft} {xs : List Json} (h : d.view? arr? = some xs) {x : Json}
    (hx : x ∈ xs) : x.Distinct := by
  rcases Option.bind_eq_some_iff.mp h with ⟨v, hv, harr⟩
  cases v with
  | arr ys =>
    cases harr
    exact (distinct_of_value? hv).item hx
  | _ => cases harr

theorem exists_of_mem_list? {d : Draft} {xs : List α} (h : d.list? read = some xs) {x : α}
    (hx : x ∈ xs) : ∃ d, read d = some x := by
  cases d with
  | arr ds =>
    rcases exists_of_mem_mapM h hx with ⟨d, -, hd⟩
    exact ⟨d, hd⟩
  | _ => cases h

theorem optional?_some {d : Draft} (hd : d ≠ .null) :
    optional? read (some d) = (read d).map some := by
  unfold optional?
  split
  · contradiction
  · simp_all
  · simp_all

theorem draft_ne_null {v : Json} (hv : v ≠ .null) : v.draft ≠ .null := by
  cases v with
  | null => exact absurd rfl hv
  | _ => exact nofun

/-- A part that is written as something other than null is read back, and so is its absence. -/
theorem optional?_map {o : Option α}
    (h : ∀ x, o = some x → read (write x).draft = some x ∧ write x ≠ .null) :
    optional? read ((o.map write).map draft) = some o := by
  cases o with
  | none => rfl
  | some x =>
    rcases h x rfl with ⟨hread, hne⟩
    rw [Option.map_some, Option.map_some, optional?_some (draft_ne_null hne), hread,
      Option.map_some]

theorem optional?_value {o : Option Json} (h : ∀ v, o = some v → v.Distinct ∧ v ≠ .null) :
    optional? value? (o.map draft) = some o := by
  have hmap : optional? value? ((o.map id).map draft) = some o :=
    optional?_map fun v hv => ⟨(h v hv).1.value?_draft, (h v hv).2⟩
  rwa [Option.map_id_apply] at hmap

theorem view?_ofStrings (ss : List String) : (ofStrings ss).draft.view? strings? = some ss := by
  rw [view?_draft (distinct_ofStrings ss)]
  exact mapM_map_eq_some fun s _ => rfl

theorem view?_ofUInt64 (n : UInt64) : (ofUInt64 n).draft.view? natural? = some n := by
  rw [view?_draft (distinct_ofUInt64 n), natural?_eq_some_iff]
  exact int?_ofNat n.toNat_lt

theorem view?_ofNat {n : Nat} (h : n < UInt64.size) :
    ((ofNat n).draft.view? natural?).map UInt64.toNat = some n := by
  have hword : ofNat n = ofUInt64 (UInt64.ofNat n) := by
    rw [ofUInt64, UInt64.toNat_ofNat_of_lt' h]
  rw [hword, view?_ofUInt64, Option.map_some, UInt64.toNat_ofNat_of_lt' h]

theorem view?_ofUInt32 (n : UInt32) : (ofUInt32 n).draft.view? uint32? = some n := by
  have hlt := n.toNat_lt
  rw [view?_draft (distinct_ofUInt32 n), uint32?, int?_ofUInt32, Option.bind_some,
    if_pos (by omega)]
  simp

theorem view?_ofInt32 (n : Int32) : (ofInt32 n).draft.view? int32? = some n := by
  rw [view?_draft (distinct_ofInt32 n), int32?_eq_some_iff]
  rfl

end Draft

/-- A list of parts is read back if each of them is. -/
theorem Lossless.list {α : Type} {write : α → Json} {read : Draft → Option α} {xs : List α}
    (h : ∀ x ∈ xs, Lossless write read x) :
    Lossless (fun xs => arr (xs.map write)) (Draft.list? read) xs where
  distinct := distinct_arr_iff.mpr (List.forall_mem_map.mpr fun x hx => (h x hx).distinct)
  read_write := by
    rw [draft_arr, List.map_map]
    exact mapM_map_eq_some fun x hx => (h x hx).read_write

end ArchivalQuery.Json
