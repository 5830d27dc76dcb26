import ArchivalQuery.Depth
import ArchivalQuery.Proofs.Checked

/-! # Depths and their scopes

Which depths name a scope, and which scope it is: by the sign of the hops, with the children as the
case of one hop down.  The working set is expanded unless the scope is the children or a distance.
-/
namespace ArchivalQuery.Depth
variable {hops : Int32}

theorem check_relative_eq_ok_iff {hops : Int32} :
    (relative hops).check = .ok () ↔ hops.toInt ≠ 0 := by
  rw [check, Checked.guard_eq_ok, ← Int32.toInt_inj]
  simp

theorem check_exact_eq_ok_iff {distance : Int32} :
    (exact distance).check = .ok () ↔ 0 ≤ distance.toInt := by
  rw [check, Checked.guard_eq_ok, Int32.lt_iff_toInt_lt]
  simp

theorem toNat_magnitude (n : Int32) : (magnitude n).toNat = n.toInt.natAbs := by
  have hle := n.le_toInt
  have hlt := n.toInt_lt
  have hsize : UInt32.size = 0x100000000 := rfl
  exact UInt32.toNat_ofNat_of_lt' (by omega)

theorem resolve_eq_ok_iff {depth : Depth} {scope : Scope} :
    depth.resolve = .ok scope ↔ depth.check = .ok () ∧ scope = depth.scope := by
  unfold resolve
  rw [Checked.bind_unit_eq_ok, Checked.pure_eq_ok, eq_comm (a := scope)]

theorem scope_of_one_lt (h : 1 < hops.toInt) :
    (relative hops).scope = .descendants (magnitude hops) := by
  have hone : hops ≠ 1 := by
    rintro rfl
    exact absurd h (by decide)
  have hpos : 0 < hops := Int32.lt_iff_toInt_lt.mpr (Int.lt_trans Int.zero_lt_one h)
  rw [scope, if_neg hone, if_pos hpos]

theorem scope_of_neg (h : hops.toInt < 0) :
    (relative hops).scope = .ancestors (magnitude hops) := by
  have hone : hops ≠ 1 := by
    rintro rfl
    exact absurd h (by decide)
  have hpos : ¬0 < hops := by
    rw [Int32.lt_iff_toInt_lt]
    exact Int.lt_asymm h
  rw [scope, if_neg hone, if_neg hpos]

theorem targetField_of_pos {a : Ancestry} (h : 0 < hops.toInt) :
    (relative hops).scope.targetField a = a.parents := by
  by_cases hone : hops.toInt = 1
  · obtain rfl : hops = 1 := Int32.toInt_inj.mp hone
    rfl
  · rw [scope_of_one_lt (by omega)]
    rfl

theorem targetField_of_neg {a : Ancestry} (h : hops.toInt < 0) :
    (relative hops).scope.targetField a = a.id := by
  rw [scope_of_neg h]
  rfl

theorem expansion_scope_of_one_lt (h : 1 < hops.toInt) :
    (relative hops).scope.expansion = .descendants (magnitude hops - 1) := by
  have hmag := toNat_magnitude hops
  have hgrow : 1 < magnitude hops := UInt32.lt_iff_toNat_lt.mpr (by simp; omega)
  rw [scope_of_one_lt h, Scope.expansion, if_pos hgrow]

theorem expansion_scope_of_neg (h : hops.toInt < 0) :
    (relative hops).scope.expansion = .ancestors (magnitude hops) := by
  rw [scope_of_neg h, Scope.expansion]

/-- A depth that names a scope is one of those that leave the working set as it is, or it expands
the set, by at least one hop. -/
theorem expansion_scope_cases {depth : Depth} (hdepth : depth.check = .ok ()) :
    (depth = .relative 1 ∨ ∃ distance, depth = .exact distance) ∧ depth.scope.expansion = .none ∨
    (depth ≠ .relative 1 ∧ ∀ distance, depth ≠ .exact distance) ∧ ∃ hops : UInt32, hops ≠ 0 ∧
      (depth.scope.expansion = .descendants hops ∨ depth.scope.expansion = .ancestors hops) := by
  cases depth with
  | relative hops =>
    rw [check_relative_eq_ok_iff] at hdepth
    have hmag := toNat_magnitude hops
    by_cases hone : hops.toInt = 1
    · obtain rfl : hops = 1 := Int32.toInt_inj.mp hone
      exact .inl ⟨.inl rfl, rfl⟩
    · have hne : relative hops ≠ relative 1 := by
        rintro ⟨⟩
        exact hone rfl
      refine .inr ⟨⟨hne, nofun⟩, ?_⟩
      rcases Int.lt_or_gt_of_ne hdepth with hneg | hpos
      · refine ⟨magnitude hops, ?_, .inr (expansion_scope_of_neg hneg)⟩
        rw [ne_eq, ← UInt32.toNat_inj, hmag]
        simp; omega
      · have hlt : 1 < hops.toInt := by omega
        have hgrow : 1 ≤ magnitude hops := UInt32.le_iff_toNat_le.mpr (by simp; omega)
        refine ⟨magnitude hops - 1, ?_, .inl (expansion_scope_of_one_lt hlt)⟩
        rw [ne_eq, ← UInt32.toNat_inj, UInt32.toNat_sub_of_le _ _ hgrow, hmag]
        simp; omega
  | exact distance => exact .inl ⟨.inr ⟨distance, rfl⟩, rfl⟩

end ArchivalQuery.Depth
