import ArchivalQuery.Proofs.Settings.Ancestry

/-! # Valid settings

Settings are valid if no limit is zero and the ancestry names are valid.  Limits are tested first,
and the first one that is zero is reported.
-/
namespace ArchivalQuery

theorem Limits.check_eq_ok_iff {l : Limits} : l.check = .ok () ↔ ∀ k, l.get k ≠ 0 := by
  unfold check
  split
  · rename_i k hk
    have hzero := List.find?_some hk
    simp only [reduceCtorEq, false_iff, not_forall, not_not]
    exact ⟨k, eq_of_beq hzero⟩
  · rename_i hnone
    simpa [List.find?_eq_none, Limit.mem_all] using hnone

theorem Limits.check_eq_error_iff {l : Limits} {e : SettingsError} :
    l.check = .error e ↔ ∃ k, IsLeast {k | l.get k = 0} k ∧ e = .zeroLimit k := by
  have hfind {k : Limit} : (Limit.all.find? fun k => l.get k == 0) = some k ↔
      IsLeast {k | l.get k = 0} k := by
    rw [find?_eq_some_iff_isLeast Limit.pairwise_all]
    simp only [Limit.mem_all, true_and, beq_iff_eq]
  simp only [← hfind, check]
  cases Limit.all.find? fun k => l.get k == 0 with
  | some k => simp [eq_comm]
  | none => simp

namespace Settings
variable {s : Settings}

structure Valid (s : Settings) : Prop where
  nonzero (k : Limit) : s.limits.get k ≠ 0
  filled (r : Role) : Text.allBlank (s.ancestry.name r) = false
  distinct : Function.Injective s.ancestry.name

theorem check_eq_ok_iff : s.check = .ok () ↔ s.Valid := by
  have hcheck : s.check = .ok () ↔ s.limits.check = .ok () ∧ s.ancestry.check = .ok () := by
    unfold check
    cases s.limits.check <;> simp [bind, Except.bind]
  rw [hcheck, Limits.check_eq_ok_iff, Ancestry.check_eq_ok_iff]
  exact ⟨fun ⟨hlimits, hfilled, hnames⟩ => ⟨hlimits, hfilled, hnames⟩,
    fun h => ⟨h.nonzero, h.filled, h.distinct⟩⟩

theorem check_eq_error_iff {e : SettingsError} :
    s.check = .error e ↔
      (∃ k, IsLeast {k | s.limits.get k = 0} k ∧ e = .zeroLimit k) ∨
      (∀ k, s.limits.get k ≠ 0) ∧ s.ancestry.check = .error e := by
  rw [← Limits.check_eq_error_iff, ← Limits.check_eq_ok_iff]
  unfold check
  cases s.limits.check <;> simp [bind, Except.bind]

end Settings
end ArchivalQuery
