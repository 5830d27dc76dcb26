import ArchivalQuery.Plan.Compile
import ArchivalQuery.Proofs.Field.Names
import ArchivalQuery.Proofs.Settings.Ancestry

/-! # Reserved fields that share a stored name

A configuration names the fields of identity and ancestry; the other reserved fields of a document
have names that no configuration changes.  Valid ancestry names keep the fields of the first kind
apart from each other, but a role may be given the name of a field of the second kind.  In no other
way do two reserved fields come to share a stored name.
-/
namespace ArchivalQuery

def Role.field : Role → ReservedField
  | id => .id
  | parents => .unitUps
  | ancestors => .allUnitUps
  | minDepth => .min
  | maxDepth => .max

theorem Role.queryable_field (r : Role) : r.field.queryable = true := by
  cases r <;> rfl

namespace ReservedField

/-- The fields without a role, with their stored names. -/
def fixed : List (ReservedField × String) :=
  [(dua, "_dua"), (nbUnits, "_nbc"), (type, "_type"), (objectGroup, "_og"), (management, "_mgt")]

theorem queryable_of_mem_fixed : ∀ p ∈ fixed, p.1.queryable = true := by decide

theorem fixed_injective : ∀ p ∈ fixed, ∀ q ∈ fixed, p.2 = q.2 → p.1 = q.1 := by decide

theorem fixed_ne_field : ∀ p ∈ fixed, ∀ r : Role, p.1 ≠ r.field := by
  intro p hp r
  cases r <;> revert p <;> decide

/-- A reserved field that an expression may use has a role or a fixed name. -/
theorem field_or_fixed {f : ReservedField} (h : f.queryable = true) :
    (∃ r : Role, r.field = f) ∨ ∃ name, (f, name) ∈ fixed := by
  cases f with
  | all => cases h
  | id => exact .inl ⟨.id, rfl⟩
  | unitUps => exact .inl ⟨.parents, rfl⟩
  | allUnitUps => exact .inl ⟨.ancestors, rfl⟩
  | min => exact .inl ⟨.minDepth, rfl⟩
  | max => exact .inl ⟨.maxDepth, rfl⟩
  | dua | nbUnits | type | objectGroup | management => exact .inr (by simp [fixed])

end ReservedField

namespace Field
open ReservedField (fixed)
variable {a : Ancestry} {f g : ReservedField}

theorem stored_field (a : Ancestry) (r : Role) : stored a r.field.token = a.name r := by
  rw [stored, storedName?, ReservedField.ofToken?_token]
  cases r <;> rfl

theorem stored_of_mem_fixed {name : String} (h : (f, name) ∈ fixed) :
    stored a f.token = name := by
  rw [stored, storedName?, ReservedField.ofToken?_token]
  simp only [fixed, List.mem_cons, Prod.mk.injEq, List.not_mem_nil, or_false] at h
  rcases h with ⟨rfl, rfl⟩ | ⟨rfl, rfl⟩ | ⟨rfl, rfl⟩ | ⟨rfl, rfl⟩ | ⟨rfl, rfl⟩ <;> rfl

/-- Whether a configuration gives the role of one field the name of another. -/
def Takes (a : Ancestry) (f g : ReservedField) : Prop :=
  ∃ r : Role, r.field = f ∧ (g, a.name r) ∈ fixed

theorem Takes.stored_eq (h : Takes a f g) : stored a f.token = stored a g.token := by
  obtain ⟨r, rfl, hfixed⟩ := h
  rw [stored_field, stored_of_mem_fixed hfixed]

theorem stored_eq_iff (ha : a.check = .ok ()) (hf : f.queryable = true)
    (hg : g.queryable = true) :
    stored a f.token = stored a g.token ↔ f = g ∨ Takes a f g ∨ Takes a g f := by
  constructor
  · intro h
    obtain ⟨r, rfl⟩ | ⟨n, hn⟩ := ReservedField.field_or_fixed hf <;>
      obtain ⟨s, rfl⟩ | ⟨m, hm⟩ := ReservedField.field_or_fixed hg
    · rw [stored_field, stored_field] at h
      exact .inl (congrArg Role.field (Ancestry.name_injective ha h))
    · rw [stored_field, stored_of_mem_fixed hm] at h
      exact .inr (.inl ⟨r, rfl, h ▸ hm⟩)
    · rw [stored_of_mem_fixed hn, stored_field] at h
      exact .inr (.inr ⟨s, rfl, h ▸ hn⟩)
    · rw [stored_of_mem_fixed hn, stored_of_mem_fixed hm] at h
      exact .inl (ReservedField.fixed_injective _ hn _ hm h)
  · rintro (rfl | h | h)
    · rfl
    · exact h.stored_eq
    · exact h.stored_eq.symm

theorem mem_fixedNames_iff {name : String} : name ∈ fixedNames ↔ ∃ f, (f, name) ∈ fixed := by
  have hnames : fixedNames = fixed.map Prod.snd := rfl
  rw [hnames, List.mem_map]
  exact ⟨fun ⟨⟨f, _⟩, hf, h⟩ => ⟨f, h ▸ hf⟩, fun ⟨f, hf⟩ => ⟨_, hf, rfl⟩⟩

theorem storedName?_of_queryable (a : Ancestry) (h : f.queryable = true) :
    storedName? a f.token = some (stored a f.token) :=
  storedName?_eq_some_stored
    (admitted_iff.mpr (.inr ⟨f, rfl, fun hall => absurd hall (queryable_iff.mp h)⟩))

/-- Under a valid configuration two reserved fields share a stored name, in projections as in
expressions and sort keys, exactly if one of them has a role that is given the fixed name of the
other.  All of them are stored apart exactly if no role is given a fixed name. -/
theorem reserved_fields_share_iff (ha : a.check = .ok ()) :
    (∀ f g : ReservedField, f.queryable = true → g.queryable = true → f ≠ g →
      (storedName? a f.token = storedName? a g.token ↔ Takes a f g ∨ Takes a g f)) ∧
    ((∀ f g : ReservedField, f.queryable = true → g.queryable = true → f ≠ g →
      storedName? a f.token ≠ storedName? a g.token) ↔ ∀ r, a.name r ∉ fixedNames) ∧
    ∀ f : ReservedField, f.queryable = true →
      storedName? a f.token = some (stored a f.token) := by
  have hshare : ∀ f g : ReservedField, f.queryable = true → g.queryable = true → f ≠ g →
      (storedName? a f.token = storedName? a g.token ↔ Takes a f g ∨ Takes a g f) := by
    intro f g hf hg hne
    rw [storedName?_of_queryable a hf, storedName?_of_queryable a hg, Option.some.injEq,
      stored_eq_iff ha hf hg, or_iff_right hne]
  refine ⟨hshare, ⟨?_, ?_⟩, fun f => storedName?_of_queryable a⟩
  · intro hapart r hr
    obtain ⟨g, hg⟩ := mem_fixedNames_iff.mp hr
    have hqueryable := ReservedField.queryable_of_mem_fixed _ hg
    have hne := ReservedField.fixed_ne_field _ hg r
    have htakes : Takes a r.field g := ⟨r, rfl, hg⟩
    exact hapart _ _ r.queryable_field hqueryable hne.symm
      ((hshare _ _ r.queryable_field hqueryable hne.symm).mpr (.inl htakes))
  · intro hnames f g hf hg hne heq
    obtain ⟨r, -, hfixed⟩ | ⟨r, -, hfixed⟩ := (hshare f g hf hg hne).mp heq
    · exact hnames r (mem_fixedNames_iff.mpr ⟨_, hfixed⟩)
    · exact hnames r (mem_fixedNames_iff.mpr ⟨_, hfixed⟩)

/-- The parents under the name of the type, next to fields that stay apart. -/
theorem reserved_fields_share_iff_type :
    let a : Ancestry := { parents := "_type" }
    a.check = .ok () ∧ storedName? a "#unitups" = storedName? a "#type" ∧
      storedName? a "#id" ≠ storedName? a "#max" ∧
      ∀ f g : ReservedField, f.queryable = true → g.queryable = true → f ≠ g →
        storedName? {} f.token ≠ storedName? {} g.token := by
  intro a
  have ha : a.check = .ok () := by decide +kernel
  obtain ⟨hshare, -, -⟩ := reserved_fields_share_iff ha
  refine ⟨ha, (hshare .unitUps .type rfl rfl (by decide)).mpr (.inl ⟨.parents, rfl, ?_⟩), ?_, ?_⟩
  · decide
  · exact fun h => nomatch (hshare .id .max rfl rfl (by decide)).mp h
  · refine (reserved_fields_share_iff (by decide +kernel)).2.1.mpr fun r => ?_
    cases r <;> decide

/-- Valid ancestry names do not keep all reserved fields apart: the identifier may be stored under
the fixed name of another field, and a projection of both then keeps one entry, with the flag of the
last. -/
theorem reserved_fields_shared :
    let a : Ancestry := { id := "_dua" }
    a.check = .ok () ∧ ReservedField.id.queryable = true ∧ ReservedField.dua.queryable = true ∧
      ReservedField.id ≠ .dua ∧
      storedName? a ReservedField.id.token = storedName? a ReservedField.dua.token ∧
      Projection.document a ⟨[⟨"#id", true⟩, ⟨"#dua", false⟩], none⟩ =
        .obj [("_dua", .ofNat 0)] := by
  decide +kernel

end Field
end ArchivalQuery
