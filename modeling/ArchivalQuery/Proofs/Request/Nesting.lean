import ArchivalQuery.Proofs.Json.Drafts
import ArchivalQuery.Proofs.Request.Entry

/-! # The nesting of decoded requests

The gate measures a text before it is read.  No value that is decoded is nested more deeply than its
text was measured, and the measure is exact for a text that repeats no name: members that are
written over count for the text and not for the value.  The bytes of the text give the same measure
as its characters.
-/
namespace ArchivalQuery
open String (utf8EncodeChar)

namespace Gate

/-- The scan after one more byte, which stands for the character of its number. -/
def Scan.stepByte (s : Scan) (b : UInt8) : Scan := s.step (Char.ofUInt8 b)

/-- The greatest number of brackets that are open at once, by the bytes of a text. -/
def byteNesting (text : String) : Nat := (text.toUTF8.data.toList.foldl Scan.stepByte {}).deepest

/-- The scan after an escape, if there was one, is over. -/
def Scan.unescaped (s : Scan) : Scan := { s with escaped := s.escaped && !s.quoted }

theorem Scan.unescaped_unescaped (s : Scan) : s.unescaped.unescaped = s.unescaped := by
  simp [unescaped]

/-- Beyond the first 128 characters there is nothing to count, but an escape is over. -/
theorem Scan.step_of_le {c : Char} (h : 128 ≤ c.toNat) (s : Scan) : s.step c = s.unescaped := by
  have hne (d : Char) (hd : d.toNat < 128) : c ≠ d := by
    rintro rfl
    omega
  have hback := hne '\\' (by decide)
  have hquote := hne '"' (by decide)
  have hopen : ¬(c = '[' ∨ c = '\x7b') := not_or.mpr ⟨hne _ (by decide), hne _ (by decide)⟩
  have hclose : ¬(c = ']' ∨ c = '\x7d') := not_or.mpr ⟨hne _ (by decide), hne _ (by decide)⟩
  rcases s with ⟨depth, deepest, quoted, escaped⟩
  cases quoted <;> cases escaped <;>
    simp [step, unescaped, hback, hquote, hopen, hclose]

theorem Scan.foldl_stepByte_of_le {bs : List UInt8} (hne : bs ≠ [])
    (hbs : ∀ b ∈ bs, 128 ≤ (Char.ofUInt8 b).toNat) (s : Scan) :
    bs.foldl stepByte s = s.unescaped := by
  induction bs generalizing s with
  | nil => exact absurd rfl hne
  | cons b bs ih =>
    rw [List.forall_mem_cons] at hbs
    rw [List.foldl_cons, stepByte, step_of_le hbs.1]
    cases bs with
    | nil => rfl
    | cons b' bs => rw [ih (List.cons_ne_nil b' bs) hbs.2, unescaped_unescaped]

theorem utf8EncodeChar_of_lt {c : Char} (h : c.toNat < 128) :
    utf8EncodeChar c = [UInt8.ofNat c.toNat] :=
  if_pos (Nat.le_of_lt_succ h)

theorem toNat_ofUInt8 {n : Nat} (h : n < 256) : (Char.ofUInt8 (UInt8.ofNat n)).toNat = n :=
  UInt8.toNat_ofNat_of_lt' h

theorem ofUInt8_ofNat {c : Char} (h : c.toNat < 128) : Char.ofUInt8 (UInt8.ofNat c.toNat) = c :=
  Char.toNat_inj.mp (toNat_ofUInt8 (by omega))

theorem le_of_mem_utf8EncodeChar {c : Char} (h : 128 ≤ c.toNat) {b : UInt8}
    (hb : b ∈ utf8EncodeChar c) : 128 ≤ (Char.ofUInt8 b).toNat := by
  have high {n : Nat} (hlow : 128 ≤ n) (hlt : n < 256) :
      128 ≤ (Char.ofUInt8 (UInt8.ofNat n)).toNat :=
    (toNat_ofUInt8 hlt).symm ▸ hlow
  have hne : ¬c.val.toNat ≤ 127 := Nat.not_le.mpr h
  unfold utf8EncodeChar at hb
  dsimp only at hb
  rw [if_neg hne] at hb
  split_ifs at hb <;> simp only [List.mem_cons, List.not_mem_nil, or_false] at hb
  · rcases hb with rfl | rfl <;> exact high (by omega) (by omega)
  · rcases hb with rfl | rfl | rfl <;> exact high (by omega) (by omega)
  · rcases hb with rfl | rfl | rfl | rfl <;> exact high (by omega) (by omega)

/-- The bytes of a character take the scan where the character takes it. -/
theorem Scan.foldl_stepByte (s : Scan) (c : Char) :
    (utf8EncodeChar c).foldl stepByte s = s.step c := by
  by_cases h : c.toNat < 128
  · rw [utf8EncodeChar_of_lt h, List.foldl_cons, List.foldl_nil, stepByte, ofUInt8_ofNat h]
  · rw [Nat.not_lt] at h
    have hne : utf8EncodeChar c ≠ [] := by
      rw [← List.length_pos_iff, String.length_utf8EncodeChar]
      exact c.utf8Size_pos
    rw [foldl_stepByte_of_le hne (fun b => le_of_mem_utf8EncodeChar h), step_of_le h]

/-- The bytes of a text are nested as deeply as its characters. -/
theorem byteNesting_eq (text : String) : byteNesting text = nesting text := by
  have hbytes : text.toUTF8.data.toList = text.toList.flatMap utf8EncodeChar := by
    conv_lhs => rw [← String.ofList_toList (s := text)]
    rw [String.toUTF8_eq_toByteArray, String.toByteArray_ofList, List.utf8Encode,
      List.data_toByteArray]
  have run (cs : List Char) (s : Scan) :
      (cs.flatMap utf8EncodeChar).foldl Scan.stepByte s = cs.foldl Scan.step s := by
    induction cs generalizing s with
    | nil => rfl
    | cons c cs ih => rw [List.flatMap_cons, List.foldl_append, Scan.foldl_stepByte, ih,
        List.foldl_cons]
  rw [byteNesting, hbytes, run, nesting]

end Gate

/-- A decoded value is nested no more deeply than its text, which is nested within the limit.  The
two are nested alike if the text repeats no name in any object.  The text may be measured by its
bytes as well. -/
theorem Request.depth_of_decode {limits : Limits} {text : String} {v : Json}
    (h : decode limits text = .ok v) :
    v.depth ≤ Gate.nesting text ∧ Gate.nesting text ≤ limits.maxNestingDepth.toNat ∧
      (∃ d, Json.Draft.ofText? text = some d ∧ d.value? = some v ∧
        (d.Distinct → v.depth = Gate.nesting text)) ∧
      Gate.byteNesting text = Gate.nesting text := by
  rcases decode_eq_ok_iff.mp h with ⟨-, hgate, hv⟩
  obtain ⟨d, hd, hvalue⟩ := Option.bind_eq_some_iff.mp hv
  have hsound : d.sound := by rw [Json.Draft.sound, hvalue, Option.isSome_some]
  refine ⟨Gate.depth_le_nesting hv, (Gate.check_eq_ok_iff.mp hgate).2, ⟨d, hd, hvalue, ?_⟩,
    Gate.byteNesting_eq text⟩
  intro hdistinct
  rw [Json.Draft.depth_value? hvalue hdistinct, Gate.nesting_eq_depth hd hsound]

/-- Brackets and quotes inside strings, some of them as escapes. -/
theorem Request.depth_of_decode_escapes :
    let text := "\x7b\"é\\\"[\": [\x7b\"\\u005b\\\\\": \"]\"\x7d]\x7d"
    ∃ v d, decode {} text = .ok v ∧ Json.Draft.ofText? text = some d ∧ d.Distinct ∧
      v.depth = Gate.nesting text ∧ v.depth = 3 := by
  intro text
  have hchars : text.toList = ['\x7b', '"', 'é', '\\', '"', '[', '"', ':', ' ', '[', '\x7b', '"',
      '\\', 'u', '0', '0', '5', 'b', '\\', '\\', '"', ':', ' ', '"', ']', '"', '\x7d', ']',
      '\x7d'] := by decide +kernel
  have hdraft : Json.Draft.ofText? text = some (.obj [("é\"[", .arr
      [.obj [("[\\", .str "]")]])]) := by
    rw [Json.Draft.ofText?, hchars]
    rfl
  have hv : Json.ofText? text = some (.obj [("é\"[", .arr [.obj [("[\\", .str "]")]])]) := by
    decide +kernel
  have hblank : Text.allBlank text = false := by decide +kernel
  have hgate : text.utf8ByteSize ≤ (Limits.maxRequestSize {}).toNat ∧
      Gate.nesting text ≤ (Limits.maxNestingDepth {}).toNat := by decide +kernel
  have hdecode := decode_eq_ok_iff.mpr ⟨hblank, Gate.check_eq_ok_iff.mpr hgate, hv⟩
  rcases (depth_of_decode hdecode).2.2.1 with ⟨d, hd, -, hdepth⟩
  obtain rfl := Option.some.inj (hdraft.symm.trans hd)
  have hdistinct : (Json.Draft.obj [("é\"[", .arr [.obj [("[\\", .str "]")]])]).Distinct := by
    simp [Json.Draft.Distinct, Json.Draft.ItemsDistinct, Json.Draft.MembersDistinct]
  exact ⟨_, _, hdecode, hd, hdistinct, hdepth hdistinct, rfl⟩

/-- A member that is written over counts for the text alone. -/
example : (Json.ofText? "\x7b\"a\":[[]],\"a\":1\x7d").map Json.depth = some 1 ∧
    Gate.nesting "\x7b\"a\":[[]],\"a\":1\x7d" = 3 := by
  decide +kernel

end ArchivalQuery
