import ArchivalQuery.Proofs.Checked
import ArchivalQuery.Proofs.Json.Scanning
import ArchivalQuery.Request.Entry

/-! # The gate and what passes it

Which texts pass the gate and are decoded.  A decoded value is never nested too deeply, so it passes
the gate again unless its compact text is too long.
-/
namespace ArchivalQuery
variable {limits : Limits} {text : String} {v : Json}

namespace Gate

theorem check_eq_ok_iff : check limits text = .ok () ↔
    text.utf8ByteSize ≤ limits.maxRequestSize.toNat ∧
      nesting text ≤ limits.maxNestingDepth.toNat := by
  unfold check
  dsimp only
  rw [← Nat.not_lt, ← Nat.not_lt]
  by_cases hsize : limits.maxRequestSize.toNat < text.utf8ByteSize
  · simp [hsize, bind, Except.bind]
  · by_cases hdepth : limits.maxNestingDepth.toNat < nesting text
    · simp [hsize, hdepth]
    · simp [hsize, hdepth, pure, Except.pure]

theorem check_of_lt (h : limits.maxRequestSize.toNat < text.utf8ByteSize) :
    check limits text =
      .error (.tooLarge (.bytes text.utf8ByteSize limits.maxRequestSize.toNat)) :=
  if_pos h

theorem category_of_check {e : QueryError} (h : check limits text = .error e) :
    e.category = .payloadTooLarge := by
  unfold check at h
  dsimp only at h
  by_cases hsize : limits.maxRequestSize.toNat < text.utf8ByteSize
  · rw [if_pos hsize] at h
    cases h
    rfl
  · rw [if_neg hsize] at h
    change (if limits.maxNestingDepth.toNat < nesting text then _ else _) = _ at h
    split at h
    · cases h
      rfl
    · cases h

end Gate

namespace Request

theorem decode_eq_ok_iff : decode limits text = .ok v ↔
    Text.allBlank text = false ∧ Gate.check limits text = .ok () ∧ Json.ofText? text = some v := by
  unfold decode
  dsimp only
  rw [Checked.malformed_bind, Checked.guard_eq_ok, Bool.not_eq_true, Checked.bind_unit_eq_ok]
  refine and_congr_right fun _ => and_congr_right fun _ => ?_
  cases Json.ofText? text with
  | none => simp
  | some w => simp

theorem decode_eq_error_iff {e : QueryError} : decode limits text = .error e ↔
    Text.allBlank text = true ∧ .malformed .empty = e ∨
    Text.allBlank text = false ∧ (Gate.check limits text = .error e ∨
      Gate.check limits text = .ok () ∧ Json.ofText? text = none ∧
        .malformed .invalidJson = e) := by
  unfold decode
  dsimp only
  rw [Checked.malformed_bind, Checked.guard_eq_error, Bool.not_eq_true, Checked.bind_eq_error]
  refine or_congr_right (and_congr_right fun _ => or_congr_right ?_)
  cases Json.ofText? text with
  | none => simp [malformed]
  | some w => simp [Checked.pure_ne_error]

/-- A decoded value passes the gate again unless its compact text is too long. -/
theorem checkValue_eq_ok_iff_of_decode (h : decode limits text = .ok v) :
    Gate.checkValue limits v = .ok () ↔ v.text.utf8ByteSize ≤ limits.maxRequestSize.toNat := by
  rcases decode_eq_ok_iff.mp h with ⟨-, hgate, hv⟩
  have hdepth : Gate.nesting v.text ≤ limits.maxNestingDepth.toNat := by
    rw [Gate.nesting_text]
    exact Nat.le_trans (Gate.depth_le_nesting hv) (Gate.check_eq_ok_iff.mp hgate).2
  rw [Gate.checkValue, Gate.check_eq_ok_iff, and_iff_left hdepth]

theorem ofValue_of_lt {kind : RequestKind}
    (h : limits.maxRequestSize.toNat < v.text.utf8ByteSize) : ofValue kind limits v =
      .error (.tooLarge (.bytes v.text.utf8ByteSize limits.maxRequestSize.toNat)) := by
  rw [ofValue, Gate.checkValue, Gate.check_of_lt h]
  rfl

end Request
end ArchivalQuery
