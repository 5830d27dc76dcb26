import ArchivalQuery.Field
import ArchivalQuery.Proofs.Checked
import ArchivalQuery.Proofs.Tokens

/-! # Admitted field names

A request may name plain fields anywhere and reserved fields almost anywhere: the name of all fields
stands in projections only.  Stored names of admitted fields never look like operators, provided
that the configured names do not.
-/
namespace ArchivalQuery

/-- A name of a document field: some text without NUL that does not start like an operator, a
reserved name or a path, and does not end like a path. -/
structure Field.Plain (name : String) : Prop where
  nonempty : name ≠ ""
  head_dollar : name.toList.head? ≠ some '$'
  head_hash : name.toList.head? ≠ some '#'
  head_point : name.toList.head? ≠ some '.'
  no_nul : '\x00' ∉ name.toList
  last_point : name.toList.getLast? ≠ some '.'

def Field.reservedNames : List String :=
  ["#id", "#dua", "#unitups", "#allunitups", "#min", "#max", "#nbunits", "#type", "#object",
    "#management"]

/-- The names that a request may use in a place. -/
def Field.Admitted (place : FieldPlace) (name : String) : Prop :=
  Field.Plain name ∨ name ∈ reservedNames ∨ name = "#all" ∧ place = .projection

/-- Whether none of the configured names looks like an operator. -/
def Ancestry.Undollared (a : Ancestry) : Prop := ∀ role, (a.name role).toList.head? ≠ some '$'

/-- Whether a name looks neither like an operator nor like a reserved name. -/
def Field.Unmarked (name : String) : Prop :=
  name.toList.head? ≠ some '$' ∧ name.toList.head? ≠ some '#'

def Ancestry.Unmarked (a : Ancestry) : Prop := ∀ role, Field.Unmarked (a.name role)

namespace Field

theorem getLast?_cons_eq_point {c : Char} {cs : List Char} (hc : c ≠ '.') :
    (c :: cs).getLast? = some '.' ↔ cs.getLast? = some '.' := by
  cases cs with
  | nil => simpa using hc
  | cons d ds => rw [List.getLast?_cons_cons]

theorem isPlain_iff {name : String} (hash : name.toList.head? ≠ some '#') :
    isPlain name = true ↔ Plain name := by
  cases hn : name.toList with
  | nil =>
    have he : name = "" := String.toList_eq_nil_iff.mp hn
    simp only [isPlain, hn, Bool.false_eq_true, false_iff]
    exact fun h => h.nonempty he
  | cons c cs =>
    have he : name ≠ "" := fun h => by simp [h] at hn
    rw [hn] at hash
    simp only [isPlain, hn, Bool.and_eq_true, bne_iff_ne, List.all_eq_true, ne_eq]
    constructor
    · intro hyp
      rcases hyp with ⟨⟨⟨⟨hd, -⟩, hp⟩, hz⟩, hl⟩
      refine ⟨he, ?_, ?_, ?_, ?_, ?_⟩ <;> rw [hn]
      · simpa using hd
      · exact hash
      · simpa using hp
      · exact fun h => hz _ h rfl
      · rwa [ne_eq, getLast?_cons_eq_point hp]
    · intro hyp
      rcases hyp with ⟨-, hd, -, hp, hz, hl⟩
      rw [hn] at hd hp hz hl
      have hc : c ≠ '.' := by simpa using hp
      refine ⟨⟨⟨⟨?_, ?_⟩, hc⟩, fun x hx h => hz (h ▸ hx)⟩, ?_⟩
      · simpa using hd
      · simpa using hash
      · rwa [ne_eq, getLast?_cons_eq_point hc] at hl

theorem head_token (f : ReservedField) : f.token.toList.head? = some '#' := by
  cases f <;> rfl

theorem queryable_iff {f : ReservedField} : f.queryable = true ↔ f ≠ .all := by
  cases f <;> decide

theorem mem_reservedNames_iff {name : String} :
    name ∈ reservedNames ↔ ∃ f : ReservedField, name = f.token ∧ f ≠ .all := by
  have hwords (f : ReservedField) : f ∈ ReservedField.words := by cases f <;> decide
  have hnames : reservedNames = (ReservedField.words.filter (· ≠ .all)).map (·.token) := rfl
  rw [hnames, List.mem_map]
  simp only [List.mem_filter, hwords, true_and, decide_eq_true_eq, and_comm, @eq_comm _ name]

theorem admitted_iff {place : FieldPlace} {name : String} : Admitted place name ↔
    Plain name ∨ ∃ f : ReservedField, name = f.token ∧ (f = .all → place = .projection) := by
  unfold Admitted
  apply or_congr_right
  rw [mem_reservedNames_iff]
  constructor
  · rintro (⟨f, hf, hne⟩ | ⟨hall, hplace⟩)
    · exact ⟨f, hf, fun h => absurd h hne⟩
    · exact ⟨.all, hall, fun _ => hplace⟩
  · rintro ⟨f, hf, hplace⟩
    by_cases hall : f = .all
    · subst hall
      exact .inr ⟨hf, hplace rfl⟩
    · exact .inl ⟨f, hf, hall⟩

/-- Exactly the admitted names pass the check. -/
theorem check_eq_ok_iff {place : FieldPlace} {name : String} :
    check place name = .ok () ↔ Admitted place name := by
  rw [admitted_iff]
  unfold check
  by_cases hash : name.toList.head? = some '#'
  · rw [if_pos hash]
    have hplain : ¬Plain name := fun h => h.head_hash hash
    cases hf : ReservedField.ofToken? name with
    | none =>
      have hres : ∀ f : ReservedField, name ≠ f.token := by
        rintro f rfl
        simp at hf
      simp [hplain, hres]
    | some f =>
      rw [ReservedField.ofToken?_eq_some_iff] at hf
      subst hf
      have hres : (∃ g : ReservedField, f.token = g.token ∧ (g = .all → place = .projection)) ↔
          (f = .all → place = .projection) := by
        constructor
        · rintro ⟨g, hg, h⟩
          exact ReservedField.token_injective hg ▸ h
        · exact fun h => ⟨f, rfl, h⟩
      rw [or_iff_right hplain, hres]
      simp [← queryable_iff, imp_iff_not_or]
  · rw [if_neg hash]
    have hres : ∀ f : ReservedField, name ≠ f.token := by
      rintro f rfl
      exact hash (head_token f)
    simp [hres, ← isPlain_iff hash]

/-- Names that are not reserved are stored as they are. -/
theorem storedName?_of_ne_token {a : Ancestry} {name : String}
    (h : ∀ f : ReservedField, name ≠ f.token) : storedName? a name = some name := by
  have hres : ReservedField.ofToken? name = none :=
    Option.eq_none_iff_forall_ne_some.mpr fun f hf => h f (ReservedField.ofToken?_eq_some_iff.mp hf)
  rw [storedName?, hres]

theorem storedName?_of_plain {a : Ancestry} {name : String} (h : Plain name) :
    storedName? a name = some name := by
  apply storedName?_of_ne_token
  rintro f rfl
  exact h.head_hash (head_token f)

/-- The names that no configuration changes. -/
def fixedNames : List String := ["_dua", "_nbc", "_type", "_og", "_mgt"]

/-- What holds of configured, fixed and plain names holds of the stored name of every field that an
expression may use. -/
theorem stored_cases {P : String → Prop} {a : Ancestry} (configured : ∀ role, P (a.name role))
    (fixed : ∀ name ∈ fixedNames, P name) (plain : ∀ name, Plain name → P name) {name : String}
    (h : Admitted .query name) : P (stored a name) := by
  rcases admitted_iff.mp h with h | ⟨f, rfl, hf⟩
  · rw [stored, storedName?_of_plain h]
    exact plain name h
  · rw [stored, storedName?, ReservedField.ofToken?_token]
    cases f
    case all => exact absurd (hf rfl) nofun
    case id => exact configured .id
    case unitUps => exact configured .parents
    case allUnitUps => exact configured .ancestors
    case min => exact configured .minDepth
    case max => exact configured .maxDepth
    all_goals exact fixed _ (by simp [fixedNames, reservedName?])

/-- The stored name of a field that an expression may use never looks like an operator. -/
theorem head?_stored_ne {a : Ancestry} (ha : a.Undollared) {name : String}
    (h : Admitted .query name) : (stored a name).toList.head? ≠ some '$' :=
  stored_cases (P := fun key => key.toList.head? ≠ some '$') ha (by decide)
    (fun _ hplain => hplain.head_dollar) h

/-- Nor does it look like a reserved name. -/
theorem unmarked_stored {a : Ancestry} (ha : a.Unmarked) {name : String}
    (h : Admitted .query name) : Unmarked (stored a name) :=
  stored_cases ha (by unfold Unmarked; decide)
    (fun _ hplain => ⟨hplain.head_dollar, hplain.head_hash⟩) h

/-- All fields together are the only field without a stored name. -/
theorem storedName?_eq_ite (a : Ancestry) (name : String) :
    storedName? a name = if name = ReservedField.all.token then none else some (stored a name) := by
  unfold stored
  by_cases h : ∃ f : ReservedField, name = f.token
  · obtain ⟨f, rfl⟩ := h
    rw [storedName?, ReservedField.ofToken?_token]
    cases f <;> rfl
  · rw [storedName?_of_ne_token (not_exists.mp h), if_neg fun hall => h ⟨_, hall⟩]
    rfl

/-- A field that an expression may use has a stored name. -/
theorem storedName?_eq_some_stored {a : Ancestry} {name : String} (h : Admitted .query name) :
    storedName? a name = some (stored a name) := by
  rw [storedName?_eq_ite, if_neg]
  rintro rfl
  obtain hplain | ⟨f, hf, hplace⟩ := admitted_iff.mp h
  · exact hplain.head_hash (head_token _)
  · exact absurd (hplace (ReservedField.token_injective hf).symm) nofun

/-- The names under which fields are stored: an ancestry field under that of its role, the other
reserved fields under fixed ones, and everything else under its own. -/
def mapped (a : Ancestry) : String → String
  | "#id" => a.id
  | "#unitups" => a.parents
  | "#allunitups" => a.ancestors
  | "#min" => a.minDepth
  | "#max" => a.maxDepth
  | "#dua" => "_dua"
  | "#nbunits" => "_nbc"
  | "#type" => "_type"
  | "#object" => "_og"
  | "#management" => "_mgt"
  | name => name

theorem stored_eq_mapped (a : Ancestry) (name : String) : stored a name = mapped a name := by
  by_cases h : ∃ f : ReservedField, name = f.token
  · obtain ⟨f, rfl⟩ := h
    rw [stored, storedName?, ReservedField.ofToken?_token]
    cases f <;> rfl
  · rw [stored, storedName?_of_ne_token (not_exists.mp h), Option.getD_some]
    unfold mapped
    split
    case h_1 => exact absurd ⟨.id, rfl⟩ h
    case h_2 => exact absurd ⟨.unitUps, rfl⟩ h
    case h_3 => exact absurd ⟨.allUnitUps, rfl⟩ h
    case h_4 => exact absurd ⟨.min, rfl⟩ h
    case h_5 => exact absurd ⟨.max, rfl⟩ h
    case h_6 => exact absurd ⟨.dua, rfl⟩ h
    case h_7 => exact absurd ⟨.nbUnits, rfl⟩ h
    case h_8 => exact absurd ⟨.type, rfl⟩ h
    case h_9 => exact absurd ⟨.objectGroup, rfl⟩ h
    case h_10 => exact absurd ⟨.management, rfl⟩ h
    case h_11 => rfl

end Field
end ArchivalQuery
