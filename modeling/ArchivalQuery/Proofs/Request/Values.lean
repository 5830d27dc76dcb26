import ArchivalQuery.Proofs.Json.ReadBack
import ArchivalQuery.Proofs.Request.Nesting

/-! # Requests as values

A request that comes as a value passes the gate by its compact text.  The gate measures the nesting
of the value itself, whatever characters its strings hold, and the outcome is the one that the
compact text would have as a request, unless the limit lets through more containers than the reader
of texts keeps.
-/
namespace ArchivalQuery
variable {limits : Limits} {text : String}

namespace Gate

theorem check_of_nested (hsize : text.utf8ByteSize ≤ limits.maxRequestSize.toNat)
    (hdepth : limits.maxNestingDepth.toNat < nesting text) : check limits text =
      .error (.tooLarge (.nesting (nesting text) limits.maxNestingDepth.toNat)) := by
  rw [check, if_neg (Nat.not_lt.mpr hsize)]
  exact if_pos hdepth

/-- A text is refused for its nesting only if it is short enough. -/
theorem check_eq_nesting_iff {depth limit : Nat} :
    check limits text = .error (.tooLarge (.nesting depth limit)) ↔
      (text.utf8ByteSize ≤ limits.maxRequestSize.toNat ∧
        limits.maxNestingDepth.toNat < nesting text) ∧
      nesting text = depth ∧ limits.maxNestingDepth.toNat = limit := by
  by_cases hsize : text.utf8ByteSize ≤ limits.maxRequestSize.toNat
  · by_cases hdepth : limits.maxNestingDepth.toNat < nesting text
    · simp [check_of_nested hsize hdepth, hsize, hdepth]
    · have hok := check_eq_ok_iff.mpr ⟨hsize, Nat.not_lt.mp hdepth⟩
      simp [hok, hdepth]
  · simp [check_of_lt (Nat.not_le.mp hsize), hsize]

/-- The gate measures the nesting of a value, by the bytes of its text as by its characters.  It
refuses the value for its nesting exactly if the text is not too long and the value is nested too
deeply, and then reports the nesting of the value. -/
theorem checkValue_refuses_nesting_iff (limits : Limits) (v : Json) :
    nesting v.text = v.depth ∧ byteNesting v.text = v.depth ∧
      ((∃ depth limit, checkValue limits v = .error (.tooLarge (.nesting depth limit))) ↔
        v.text.utf8ByteSize ≤ limits.maxRequestSize.toNat ∧
          limits.maxNestingDepth.toNat < v.depth) ∧
      (checkValue limits v =
          .error (.tooLarge (.nesting v.depth limits.maxNestingDepth.toNat)) ↔
        v.text.utf8ByteSize ≤ limits.maxRequestSize.toNat ∧
          limits.maxNestingDepth.toNat < v.depth) := by
  have hnesting := nesting_text v
  refine ⟨hnesting, (byteNesting_eq v.text).trans hnesting, ?_, ?_⟩
  · simp only [checkValue, check_eq_nesting_iff, hnesting]
    constructor
    · rintro ⟨depth, limit, h, -⟩
      exact h
    · intro h
      exact ⟨_, _, h, rfl, rfl⟩
  · simp only [checkValue, check_eq_nesting_iff, hnesting, and_true]

end Gate

namespace Request

theorem allBlank_text {v : Json} (hv : v.Integral) : Text.allBlank v.text = false := by
  obtain ⟨c, cs, hchars, hc⟩ := Json.Reader.exists_starts hv
  rw [Text.allBlank, Json.text, String.toList_ofList, hchars, List.all_cons, hc.visible,
    Bool.false_and]

/-- A value comes back from its compact text if that passes the gate. -/
theorem decode_text {v : Json} (hlimit : limits.maxNestingDepth.toNat ≤ 127) (hv : v.Distinct)
    (hnumbers : v.Integral) (hgate : Gate.check limits v.text = .ok ()) :
    decode limits v.text = .ok v := by
  have hdepth := (Gate.check_eq_ok_iff.mp hgate).2
  rw [Gate.nesting_text] at hdepth
  have hread := Json.ofText?_text hv hnumbers (Nat.le_trans hdepth hlimit)
  exact decode_eq_ok_iff.mpr ⟨allBlank_text hnumbers, hgate, hread⟩

/-- A value of exact integers and its compact text have the same outcome: the same request, or the
same refusal. -/
theorem ofValue_eq_ofText_text (kind : RequestKind) {limits : Limits}
    (hlimit : limits.maxNestingDepth.toNat ≤ 127) {v : Json} (hv : v.Distinct)
    (hnumbers : v.Integral) : ofValue kind limits v = ofText kind limits v.text := by
  cases hgate : Gate.check limits v.text with
  | ok u =>
    rw [ofText, decode_text hlimit hv hnumbers hgate, ofValue, Gate.checkValue, hgate]
    rfl
  | error e =>
    have hdecode : decode limits v.text = .error e :=
      decode_eq_error_iff.mpr (.inr ⟨allBlank_text hnumbers, .inl hgate⟩)
    rw [ofText, hdecode, ofValue, Gate.checkValue, hgate]
    rfl

/-- A root of a quote, a bracket, a backslash and a control character, and the greatest offset. -/
theorem ofValue_eq_ofText_text_escapes :
    let v : Json := .obj [("$roots", .ofStrings ["\"[\\\x01é"]),
      ("$filter", .obj [("$offset", .ofNat 0xFFFFFFFFFFFFFFFF)])]
    (Limits.maxNestingDepth {}).toNat ≤ 127 ∧ v.Distinct ∧ v.Integral ∧
      ofValue .select {} v = ofText .select {} v.text ∧
      ofValue .select {} v = .ok
        { kind := .select, roots := ["\"[\\\x01é"], steps := [],
          filter := { offset := 0xFFFFFFFFFFFFFFFF, limit := 10000 }, projection := {},
          data := none } := by
  intro v
  have hdistinct : v.Distinct := by
    simp [v, Json.Distinct, Json.MembersDistinct, Json.distinct_ofStrings, Json.ofNat]
  have hintegral : v.Integral := by
    simp [v, Json.Integral, Json.ItemsIntegral, Json.MembersIntegral, Json.ofStrings, Json.ofNat]
  have hgate : Gate.checkValue {} v = .ok () :=
    Gate.check_eq_ok_iff.mpr ⟨by decide +kernel, by decide +kernel⟩
  refine ⟨by decide, hdistinct, hintegral,
    ofValue_eq_ofText_text .select (by decide) hdistinct hintegral, ?_⟩
  rw [ofValue, hgate]
  rfl

end Request
end ArchivalQuery
