import ArchivalQuery.Json.Record

/-! # Integers in JSON

The views of a value as a word of one size hold exactly the integers of that size, and integers of
the model that are written to JSON read back.
-/
namespace ArchivalQuery.Json

theorem exact_of_int? {v : Json} {n : Int} (h : v.int? = some n) : Exact n := by
  unfold int? at h
  split at h
  · cases h
    assumption
  · cases h

/-- A natural that a JSON number keeps exact is one of the unsigned 64-bit words. -/
theorem lt_size_of_int? {v : Json} {n : Nat} (h : v.int? = some (n : Int)) : n < UInt64.size := by
  have hexact := exact_of_int? h
  have hsize : UInt64.size = 0x10000000000000000 := rfl
  unfold Exact at hexact
  omega

/-- Such a natural is the number of its word. -/
theorem eq_ofUInt64_of_int? {v : Json} {n : Nat} (h : v.int? = some (n : Int)) :
    v = ofUInt64 (UInt64.ofNat n) := by
  have hlt := lt_size_of_int? h
  have hsize : n < 0x10000000000000000 := hlt
  unfold int? at h
  split at h
  · cases h
    rw [ofUInt64, UInt64.toNat_ofNat_of_lt' hlt, ofNat, dif_pos hsize]
  · cases h

theorem natural?_eq_some_iff {v : Json} {n : UInt64} :
    v.natural? = some n ↔ v.int? = some (n.toNat : Int) := by
  unfold natural?
  cases hi : v.int? with
  | none => simp
  | some i =>
    by_cases hneg : 0 ≤ i
    · rcases Int.eq_ofNat_of_zero_le hneg with ⟨k, rfl⟩
      have hlt := lt_size_of_int? hi
      simp only [if_pos hneg, Option.some.injEq, Int.toNat_natCast, Int.natCast_inj]
      constructor
      · rintro rfl
        rw [UInt64.toNat_ofNat_of_lt' hlt]
      · rintro rfl
        simp
    · simp only [if_neg hneg, reduceCtorEq, Option.some.injEq, false_iff]
      omega

theorem isSome_natural?_iff {v : Json} :
    v.natural?.isSome ↔ ∃ n : Nat, v.int? = some (n : Int) := by
  rw [Option.isSome_iff_exists]
  constructor
  · intro hn
    rcases hn with ⟨n, h⟩
    exact ⟨n.toNat, natural?_eq_some_iff.mp h⟩
  · intro hn
    rcases hn with ⟨n, h⟩
    refine ⟨UInt64.ofNat n, natural?_eq_some_iff.mpr ?_⟩
    rw [h, UInt64.toNat_ofNat_of_lt' (lt_size_of_int? h)]

theorem int32?_eq_some_iff {v : Json} {n : Int32} : v.int32? = some n ↔ v.int? = some n.toInt := by
  have hle := n.le_toInt
  have hlt := n.toInt_lt
  unfold int32?
  cases hi : v.int? with
  | none => simp
  | some i =>
    simp only [Option.bind_some, Option.some.injEq]
    by_cases hr : -0x80000000 ≤ i ∧ i < 0x80000000
    · simp only [if_pos hr, Option.some.injEq]
      constructor
      · rintro rfl
        rw [Int32.toInt_ofInt_of_le (by omega) (by omega)]
      · rintro rfl
        simp
    · simp only [if_neg hr, reduceCtorEq, false_iff]
      omega

theorem int?_ofNat {n : Nat} (h : n < 0x10000000000000000) : (ofNat n).int? = some (n : Int) := by
  simp [ofNat, h, int?]

theorem isScalar_ofNat {n : Nat} (h : n < 0x10000000000000000) : (ofNat n).isScalar := by
  rw [ofNat, dif_pos h, isScalar]

theorem isScalar_ofUInt32 (n : UInt32) : (ofUInt32 n).isScalar := by
  have hlt := n.toNat_lt
  exact isScalar_ofNat (by omega)

theorem int?_ofUInt32 (n : UInt32) : (ofUInt32 n).int? = some (n.toNat : Int) := by
  have hlt := n.toNat_lt
  exact int?_ofNat (by omega)

end ArchivalQuery.Json
