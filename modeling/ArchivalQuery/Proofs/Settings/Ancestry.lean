import ArchivalQuery.Proofs.Settings.Order
import ArchivalQuery.Settings.Basic
import Mathlib.Data.List.Nodup
import Mathlib.Data.Prod.Lex

/-! # Valid ancestry names

Names of identity and ancestry are valid if none is blank and no two roles share one.  Of invalid
names the first blank one is reported, and if none is blank the first pair of roles that share one.
-/
namespace ArchivalQuery

namespace Ancestry
variable {a : Ancestry}

theorem sharedRoles?_eq_none_iff {rs : List Role} :
    a.sharedRoles? rs = none ↔ (rs.map a.name).Nodup := by
  induction rs with
  | nil => simp [sharedRoles?]
  | cons r rs ih =>
    rw [sharedRoles?, List.map_cons, List.nodup_cons, List.mem_map, ← ih]
    cases h : rs.find? fun s => a.name s == a.name r with
    | none =>
      rw [List.find?_eq_none] at h
      simp only [iff_and_self]
      rintro - ⟨s, hs, heq⟩
      exact h s hs (beq_iff_eq.mpr heq)
    | some s =>
      have hs := List.mem_of_find?_eq_some h
      have heq := List.find?_some h
      simp only [reduceCtorEq, false_iff, not_and]
      exact fun hne => absurd ⟨s, hs, eq_of_beq heq⟩ hne

theorem find?_allBlank_eq_none_iff :
    (Role.all.find? fun r => Text.allBlank (a.name r)) = none ↔
      ∀ r, Text.allBlank (a.name r) = false := by
  simp only [List.find?_eq_none, Role.mem_all, true_implies, Bool.not_eq_true]

/-- Exactly the names that are not blank and not shared are valid. -/
theorem check_eq_ok_iff :
    a.check = .ok () ↔ (∀ r, Text.allBlank (a.name r) = false) ∧ Function.Injective a.name := by
  have hinj : Function.Injective a.name ↔ a.sharedRoles? Role.all = none := by
    rw [sharedRoles?_eq_none_iff]
    constructor
    · exact fun h => List.Nodup.map h (by decide)
    · exact fun h r s hrs => List.inj_on_of_nodup_map h r.mem_all s.mem_all hrs
  rw [hinj, ← find?_allBlank_eq_none_iff, check]
  cases Role.all.find? fun r => Text.allBlank (a.name r) with
  | some r => simp
  | none => cases a.sharedRoles? Role.all <;> simp

/-- Whether two roles, the first of them before the second, share a name. -/
def Shares (a : Ancestry) (p : Role ×ₗ Role) : Prop :=
  (ofLex p).1 < (ofLex p).2 ∧ a.name (ofLex p).1 = a.name (ofLex p).2

/-- The pair that is found is the least one in lexicographic order. -/
theorem sharedRoles?_eq_some_iff {r s : Role} {rs : List Role} (h : rs.Pairwise (· < ·)) :
    a.sharedRoles? rs = some (r, s) ↔
      IsLeast {p | (ofLex p).1 ∈ rs ∧ (ofLex p).2 ∈ rs ∧ a.Shares p} (toLex (r, s)) := by
  induction rs with
  | nil => simp [sharedRoles?, IsLeast]
  | cons t rs ih =>
    rw [List.pairwise_cons] at h
    rw [sharedRoles?]
    cases hfind : rs.find? fun u => a.name u == a.name t with
    | some u =>
      rw [find?_eq_some_iff_isLeast h.2] at hfind
      obtain ⟨⟨hu, hname⟩, hfirst⟩ := hfind
      have hleast : IsLeast {p | (ofLex p).1 ∈ t :: rs ∧ (ofLex p).2 ∈ t :: rs ∧ a.Shares p}
          (toLex (t, u)) := by
        refine ⟨⟨List.mem_cons_self, List.mem_cons_of_mem _ hu, h.1 u hu, ?_⟩, ?_⟩
        · exact (eq_of_beq hname).symm
        · rintro p ⟨hp, hq, hlt, heq⟩
          obtain hp | hp := List.mem_cons.mp hp
          · rw [hp] at hlt heq
            have hq := (List.mem_cons.mp hq).resolve_left hlt.ne'
            exact Prod.Lex.toLex_le_toLex'.mpr
              ⟨hp.ge, fun _ => hfirst ⟨hq, beq_iff_eq.mpr heq.symm⟩⟩
          · have hlt := h.1 _ hp
            exact Prod.Lex.toLex_le_toLex'.mpr ⟨hlt.le, fun heq => absurd heq hlt.ne⟩
      rw [Option.some.injEq, ← toLex_inj]
      exact ⟨fun heq => heq ▸ hleast, fun h => le_antisymm (hleast.2 h.1) (h.2 hleast.1)⟩
    | none =>
      rw [List.find?_eq_none] at hfind
      -- The first role shares no name, so that no pair begins with it, nor ends with it.
      have hset : {p | (ofLex p).1 ∈ t :: rs ∧ (ofLex p).2 ∈ t :: rs ∧ a.Shares p} =
          {p | (ofLex p).1 ∈ rs ∧ (ofLex p).2 ∈ rs ∧ a.Shares p} := by
        ext p
        refine ⟨?_, fun ⟨hp, hq, hshares⟩ =>
          ⟨List.mem_cons_of_mem _ hp, List.mem_cons_of_mem _ hq, hshares⟩⟩
        rintro ⟨hp, hq, hlt, heq⟩
        have hp : (ofLex p).1 ∈ rs := by
          obtain hp | hp := List.mem_cons.mp hp
          · rw [hp] at hlt heq
            have hq := (List.mem_cons.mp hq).resolve_left hlt.ne'
            exact absurd (beq_iff_eq.mpr heq.symm) (hfind _ hq)
          · exact hp
        have hq := (List.mem_cons.mp hq).resolve_left ((h.1 _ hp).trans hlt).ne'
        exact ⟨hp, hq, hlt, heq⟩
      rw [hset]
      exact ih h.2

theorem check_eq_error_iff {e : SettingsError} :
    a.check = .error e ↔
      (∃ r, IsLeast {r | Text.allBlank (a.name r) = true} r ∧ e = .emptyField r) ∨
      (∀ r, Text.allBlank (a.name r) = false) ∧ ∃ r s, IsLeast {p | a.Shares p} (toLex (r, s)) ∧
        e = .duplicateField r s (a.name r) := by
  have hblank {r : Role} : (Role.all.find? fun r => Text.allBlank (a.name r)) = some r ↔
      IsLeast {r | Text.allBlank (a.name r) = true} r := by
    rw [find?_eq_some_iff_isLeast Role.pairwise_all]
    simp only [Role.mem_all, true_and]
  have hshared {r s : Role} : a.sharedRoles? Role.all = some (r, s) ↔
      IsLeast {p | a.Shares p} (toLex (r, s)) := by
    rw [sharedRoles?_eq_some_iff Role.pairwise_all]
    simp only [Role.mem_all, true_and]
  simp only [← hblank, ← hshared, ← find?_allBlank_eq_none_iff, check]
  cases hfind : Role.all.find? fun r => Text.allBlank (a.name r) with
  | some r => simp [eq_comm]
  | none =>
    cases hfirst : a.sharedRoles? Role.all with
    | some p => simp [Prod.ext_iff, eq_comm]
    | none => simp

theorem name_injective (h : a.check = .ok ()) : Function.Injective a.name :=
  (check_eq_ok_iff.mp h).2

end Ancestry
end ArchivalQuery
