import ArchivalQuery.Proofs.Decimal.Unsigned
import ArchivalQuery.Proofs.Json.Drafts
import ArchivalQuery.Proofs.Json.Scanning
import ArchivalQuery.Proofs.Json.Size
import ArchivalQuery.Text.Blank
import Mathlib.Data.List.TakeWhile

/-! # Reading a value that was written

The reader, run over the compact text of a value, ends with the draft of that value: an integer comes
back from its digits and a character from its escape.  Floats are left out, as the reader rounds
twice, and so are values in more containers than the reader keeps.
-/
namespace ArchivalQuery
open Decimal (Numeral)

namespace Decimal

theorem isDigit_of_mem_digits {n : Nat} {c : Char} (hc : c ∈ digits n) : c.isDigit :=
  Nat.isDigit_of_mem_toDigits (by decide) (by decide) hc

/-- No zero stands before other digits. -/
theorem head?_digits_ne {n : Nat} (hn : 0 < n) : (digits n).head? ≠ some '0' := by
  unfold digits
  induction n using Nat.strongRecOn with
  | ind n ih =>
    by_cases hlt : n < 10
    · rw [Nat.toDigits_of_lt_base hlt, List.head?_cons]
      intro h
      have hzero := Nat.digitChar_eq_zero.mp (Option.some.inj h)
      omega
    · have hne : Nat.toDigits 10 (n / 10) ≠ [] := Nat.toDigits_ne_nil
      rw [Nat.toDigits_of_base_le (by decide) (by omega), List.head?_append_of_ne_nil _ hne]
      exact ih (n / 10) (by omega) (by omega)

theorem integer_ne_nil (n : Int) : integer n ≠ [] := by
  unfold integer
  split
  · exact List.cons_ne_nil _ _
  · exact Nat.toDigits_ne_nil

namespace Numeral

theorem unsigned?_digits (negative : Bool) (n : Nat) :
    unsigned? negative (digits n) = some { negative, whole := digits n } := by
  have htake : (digits n).takeWhile Char.isDigit = digits n :=
    List.takeWhile_eq_self_iff.mpr fun _ => isDigit_of_mem_digits
  have hdrop : (digits n).dropWhile Char.isDigit = [] :=
    List.dropWhile_eq_nil_iff.mpr fun _ => isDigit_of_mem_digits
  have hleading : ¬((digits n).isEmpty ∨ (digits n).head? = some '0' ∧ 1 < (digits n).length) := by
    rw [List.isEmpty_iff]
    rintro (hnil | ⟨hhead, hlength⟩)
    · exact Nat.toDigits_ne_nil hnil
    · by_cases hn : n = 0
      · subst hn
        exact absurd hlength (by decide)
      · exact head?_digits_ne (Nat.pos_of_ne_zero hn) hhead
  simp only [unsigned?, htake, hdrop]
  rw [if_neg (by simpa using hleading)]
  rfl

/-- An integer is the numeral of its sign and its digits. -/
theorem ofChars?_integer (n : Int) :
    ofChars? (integer n) = some { negative := n < 0, whole := digits n.natAbs } := by
  unfold integer
  by_cases hneg : n < 0
  · rw [if_pos hneg, decide_eq_true hneg]
    exact unsigned?_digits true n.natAbs
  · rw [if_neg hneg, decide_eq_false hneg, ← unsigned?_digits false n.natAbs]
    unfold ofChars?
    split
    · rename_i cs hcs
      have hsign : '-' ∈ digits n.natAbs := hcs ▸ List.mem_cons_self
      exact absurd (isDigit_of_mem_digits hsign) (by decide)
    · rfl

end Numeral
end Decimal

namespace Json.Number

/-- Digits that stay within a word all find room. -/
theorem foldl_whole {ds : List Char} {p : Digits} (hp : p.full = false)
    (h : Nat.ofDigitChars 10 ds p.leading < UInt64.size) :
    ds.foldl Digits.whole p = { p with leading := Nat.ofDigitChars 10 ds p.leading } := by
  induction ds generalizing p with
  | nil => rfl
  | cons c ds ih =>
    rw [Nat.ofDigitChars_cons, Nat.mul_comm] at h ⊢
    have hroom := Nat.lt_of_le_of_lt (Decimal.le_ofDigitChars ds _) h
    have hwhole : p.whole c = { p with leading := p.leading * 10 + (c.toNat - '0'.toNat) } := by
      simp only [Digits.whole, Digits.extend?, hp, Bool.false_eq_true, if_false, hroom, if_true]
    rw [List.foldl_cons, hwhole]
    exact ih hp h

/-- An integer that is kept exact comes back from its digits. -/
theorem ofNumeral?_integer {n : Int} (exact : Exact n) :
    ofNumeral? { negative := n < 0, whole := Decimal.digits n.natAbs } = some (int n exact) := by
  have hsize : UInt64.size = 0x10000000000000000 := rfl
  have hvalue : Nat.ofDigitChars 10 (Decimal.digits n.natAbs) 0 = n.natAbs :=
    Nat.ofDigitChars_ten_toDigits
  have hword : Nat.ofDigitChars 10 (Decimal.digits n.natAbs) 0 < UInt64.size := by
    rw [hvalue]
    unfold Exact at exact
    omega
  have hread := foldl_whole (p := {}) rfl hword
  rw [hvalue] at hread
  simp only [ofNumeral?, hread, List.isEmpty_nil, if_true]
  by_cases hneg : n < 0
  · have hbound : 0 < n.natAbs ∧ n.natAbs ≤ 0x8000000000000000 := by
      unfold Exact at exact
      omega
    have hn : -(n.natAbs : Int) = n := by omega
    simp only [ofWhole?, Bool.false_eq_true, if_false, decide_eq_true hneg, if_true,
      dif_pos hbound, hn]
  · have hbound : n.natAbs < 0x10000000000000000 := by
      unfold Exact at exact
      omega
    have hn : (n.natAbs : Int) = n := by omega
    simp only [ofWhole?, Bool.false_eq_true, if_false, decide_eq_false hneg, dif_pos hbound, hn]

end Json.Number

namespace Json.Reader

theorem hexValue?_hexDigit : ∀ n < 16, hexValue? (hexDigit n) = some n := by
  decide

section Strings
variable {stack : List Frame}

/-- An escaped control character is no part of a surrogate pair. -/
theorem finishUnit_control (q : Quote) {c : Char} (hc : c.toNat < 0x20) :
    finishUnit stack q c.toNat none = ⟨stack, .quoted (q.push c) .none⟩ := by
  have hupper : ¬(0xD800 ≤ c.toNat ∧ c.toNat < 0xDC00) := by omega
  have hlower : ¬(0xDC00 ≤ c.toNat ∧ c.toNat < 0xE000) := by omega
  rw [finishUnit, if_neg hupper, if_neg hlower, Char.ofNat_toNat]

/-- A character comes back from its escape. -/
theorem foldl_escape (q : Quote) (c : Char) :
    (escape c).foldl step ⟨stack, .quoted q .none⟩ = ⟨stack, .quoted (q.push c) .none⟩ := by
  unfold escape
  split_ifs with hquote hback hnewline hreturn htab hbackspace hfeed hcontrol
  · subst hquote
    rfl
  · subst hback
    rfl
  · subst hnewline
    rfl
  · subst hreturn
    rfl
  · subst htab
    rfl
  · subst hbackspace
    rfl
  · subst hfeed
    rfl
  · have hhigh := hexValue?_hexDigit (c.toNat / 16) (by omega)
    have hlow := hexValue?_hexDigit (c.toNat % 16) (by omega)
    have hunit : (0 * 16 + c.toNat / 16) * 16 + c.toNat % 16 = c.toNat := by omega
    -- The two zeros of the escape have been read.
    change step (step ⟨stack, .quoted q (.unit 2 0 none)⟩ _) _ = _
    simp only [step, stepQuoted, hhigh, hlow, hunit, Nat.reduceLeDiff, if_false]
    exact finishUnit_control q hcontrol
  · change inQuotes stack q c = _
    rw [inQuotes, if_neg hquote, if_neg hback, if_neg hcontrol]

/-- So do the characters of a string. -/
theorem foldl_flatMap_escape (q : Quote) (cs : List Char) :
    (cs.flatMap escape).foldl step ⟨stack, .quoted q .none⟩ =
      ⟨stack, .quoted { q with read := cs.reverse ++ q.read } .none⟩ := by
  induction cs generalizing q with
  | nil => rfl
  | cons c cs ih =>
    rw [List.flatMap_cons, List.foldl_append, foldl_escape, ih, List.reverse_cons,
      List.append_assoc, List.singleton_append]
    rfl

theorem text?_quote (isName : Bool) (text : String) :
    Quote.text? { isName, read := text.toList.reverse } = some text := by
  rw [Quote.text?, if_pos rfl, List.reverse_reverse, String.ofList_toList]

/-- A string is closed with the text that was quoted. -/
theorem foldl_quoted {s : State} {isName : Bool} (text : String)
    (hs : step s '"' = ⟨stack, .quoted { isName } .none⟩) :
    (quoted text).foldl step s = closeQuote stack { isName, read := text.toList.reverse } := by
  rw [quoted, List.foldl_cons, hs, List.foldl_append, foldl_flatMap_escape, List.append_nil]
  rfl

end Strings

structure Starts (c : Char) : Prop where
  visible : Text.isBlank c = false
  ne : c ≠ ']'

theorem starts_of_isPart {c : Char} (h : Numeral.isPart c) : Starts c := by
  simp only [Numeral.isPart, Numeral.isMark, Bool.or_eq_true, beq_iff_eq] at h
  rcases h with ((h | rfl) | rfl) | (rfl | rfl) | rfl
  · unfold Char.isDigit at h
    simp only [Bool.and_eq_true, decide_eq_true_eq] at h
    have hlow : 48 ≤ c.toNat := h.1
    have hhigh : c.toNat ≤ 57 := h.2
    constructor
    · simp [Text.isBlank]
      omega
    · rintro rfl
      exact absurd hhigh (by decide)
  all_goals exact ⟨by decide, by decide⟩

theorem isBlank_of_isSpace {c : Char} (h : isSpace c) : Text.isBlank c := by
  simp only [isSpace, Bool.or_eq_true, beq_iff_eq] at h
  rcases h with ((rfl | rfl) | rfl) | rfl <;> decide

theorem Starts.not_isSpace {c : Char} (hc : Starts c) : isSpace c = false := by
  apply Bool.eq_false_iff.mpr
  intro h
  exact Bool.eq_false_iff.mp hc.visible (isBlank_of_isSpace h)

theorem exists_starts {v : Json} (hv : v.Integral) : ∃ c cs, v.chars = c :: cs ∧ Starts c := by
  match v with
  | .null | .bool true | .bool false | .str _ | .arr [] | .arr (_ :: _) | .obj [] | .obj (_ :: _) =>
    exact ⟨_, _, rfl, by decide, by decide⟩
  | .num (.int n exact) =>
    obtain ⟨c, cs, hchars⟩ := List.exists_cons_of_ne_nil (Decimal.integer_ne_nil n)
    have hpart := Decimal.isPart_integer c (hchars ▸ List.mem_cons_self)
    exact ⟨c, cs, hchars, starts_of_isPart hpart⟩

/-- The characters that may follow a value in a container. -/
def Ends (c : Char) : Prop := c = ',' ∨ c = ']' ∨ c = '\x7d'

/-- Whether two states cannot be told apart by what may follow a value.  A number that is still open
is alike to the state in which it is closed. -/
structure State.Alike (s t : State) : Prop where
  step : ∀ c, Ends c → Reader.step s c = Reader.step t c
  result : s.result = t.result

theorem State.Alike.refl (s : State) : s.Alike s := ⟨fun _ _ => rfl, rfl⟩

theorem Ends.not_isPart {c : Char} (hc : Ends c) : Numeral.isPart c = false := by
  rcases hc with rfl | rfl | rfl <;> rfl

/-- A number is settled as soon as it is followed by what may follow a value, or by nothing. -/
theorem alike_number {stack : List Frame} {read : List Char} {d : Draft}
    (h : closeNumber stack read = settle d stack) :
    State.Alike ⟨stack, .number read⟩ (settle d stack) := by
  constructor
  · intro c hc
    simp only [step, hc.not_isPart, Bool.false_eq_true, if_false, h]
    cases stack with
    | nil => rfl
    | cons frame stack => cases frame <;> rcases hc with rfl | rfl | rfl <;> rfl
  · simp only [State.result, h]
    cases stack with
    | nil => rfl
    | cons frame stack => cases frame <;> rfl

theorem closeQuote_value (stack : List Frame) (text : String) :
    closeQuote stack { isName := false, read := text.toList.reverse } = settle (.str text) stack := by
  rw [closeQuote, if_neg Bool.false_ne_true, text?_quote]

theorem step_value_part {c : Char} (h : Numeral.isPart c) (stack : List Frame) :
    step ⟨stack, .value⟩ c = ⟨stack, .number [c]⟩ := by
  have hne (d : Char) (hd : Numeral.isPart d = false) : c ≠ d := by
    rintro rfl
    exact Bool.eq_false_iff.mp hd h
  change (if isSpace c then _ else startValue stack c) = _
  rw [(starts_of_isPart h).not_isSpace, if_neg Bool.false_ne_true, startValue, if_neg (hne _ rfl),
    if_neg (hne _ rfl), if_neg (hne _ rfl), if_neg (hne _ rfl), if_neg (hne _ rfl),
    if_neg (hne _ rfl), if_pos h]

/-- The characters of a number are kept until it is closed. -/
theorem foldl_number {stack : List Frame} {cs : List Char} (hcs : ∀ c ∈ cs, Numeral.isPart c)
    (hne : cs ≠ []) : cs.foldl step ⟨stack, .value⟩ = ⟨stack, .number cs.reverse⟩ := by
  have more (cs read : List Char) (hcs : ∀ c ∈ cs, Numeral.isPart c) :
      cs.foldl step ⟨stack, .number read⟩ = ⟨stack, .number (cs.reverse ++ read)⟩ := by
    induction cs generalizing read with
    | nil => rfl
    | cons c cs ih =>
      rw [List.forall_mem_cons] at hcs
      have hstep : step ⟨stack, .number read⟩ c = ⟨stack, .number (c :: read)⟩ := if_pos hcs.1
      rw [List.foldl_cons, hstep, ih _ hcs.2, List.reverse_cons, List.append_assoc,
        List.singleton_append]
  cases cs with
  | nil => exact absurd rfl hne
  | cons c cs =>
    rw [List.forall_mem_cons] at hcs
    rw [List.foldl_cons, step_value_part hcs.1, more cs [c] hcs.2, List.reverse_cons]

theorem closeNumber_integer (stack : List Frame) {n : Int} (exact : Exact n) :
    closeNumber stack (Decimal.integer n).reverse = settle (.num (.int n exact)) stack := by
  rw [closeNumber, List.reverse_reverse, Numeral.ofChars?_integer]
  dsimp only
  rw [Number.ofNumeral?_integer exact]

/-- An array that is still open, after the last of the items read so far. -/
def inArray (stack : List Frame) (ds : List Draft) : State := ⟨.array ds.reverse :: stack, .next⟩

/-- Members as an open object keeps them, the latest first. -/
def openMembers (ms : List (String × Draft)) : List (Option String × Draft) :=
  (ms.map fun m => (some m.1, m.2)).reverse

def inObject (stack : List Frame) (ms : List (String × Draft)) : State :=
  ⟨.object (openMembers ms) :: stack, .next⟩

theorem close_of_lt {stack : List Frame} (h : stack.length < maxDepth) (d : Draft) :
    close d stack = settle d stack := by
  have hfew : (stack.drop (maxDepth - 1)).isEmpty := by
    rw [List.isEmpty_iff, List.drop_eq_nil_iff]
    exact Nat.le_sub_one_of_lt h
  rw [close, if_pos hfew]

theorem object_openMembers (ms : List (String × Draft)) : object (openMembers ms) = .obj ms := by
  have hnames : (ms.map fun m => (some m.1, m.2)).mapM (fun m => m.1.map (·, m.2)) = some ms :=
    mapM_map_eq_some fun _ _ => rfl
  rw [object, openMembers, List.reverse_reverse, hnames]

section Containers
variable {stack : List Frame}

theorem step_inArray_close (h : stack.length < maxDepth) (ds : List Draft) :
    step (inArray stack ds) ']' = settle (.arr ds) stack := by
  change close (.arr ds.reverse.reverse) stack = _
  rw [List.reverse_reverse, close_of_lt h]

theorem step_inObject_close (h : stack.length < maxDepth) (ms : List (String × Draft)) :
    step (inObject stack ms) '\x7d' = settle (.obj ms) stack := by
  change close (object (openMembers ms)) stack = _
  rw [object_openMembers, close_of_lt h]

/-- Up to its value, a member is read whatever members were read before it. -/
theorem foldl_member {s : State} (ms : List (String × Draft)) (key : String) (cs : List Char)
    (hs : step s '"' = ⟨.object (openMembers ms) :: stack, .quoted { isName := true } .none⟩) :
    (quoted key ++ ':' :: cs).foldl step s =
      cs.foldl step ⟨.member (openMembers ms) (some key) :: stack, .value⟩ := by
  rw [List.foldl_append, foldl_quoted key hs, closeQuote, if_pos rfl, text?_quote]
  rfl

/-- An object takes a value for its latest name. -/
theorem settle_member (ms : List (String × Draft)) (key : String) (d : Draft) :
    settle d (.member (openMembers ms) (some key) :: stack) =
      inObject stack (ms ++ [(key, d)]) := by
  rw [settle, inObject, openMembers, openMembers, List.map_append, List.reverse_append]
  rfl

/-- An array takes a value as its next item. -/
theorem settle_item (ds : List Draft) (d : Draft) :
    settle d (.array ds.reverse :: stack) = inArray stack (ds ++ [d]) := by
  rw [settle, inArray, List.reverse_append]
  rfl

end Containers

theorem State.Alike.foldl_moreItems {s t : State} (h : s.Alike t) (xs : List Json) :
    (moreItems xs).foldl Reader.step s = (moreItems xs).foldl Reader.step t := by
  cases xs with
  | nil => rw [moreItems, List.foldl_cons, List.foldl_cons, h.step _ (.inr (.inl rfl))]
  | cons x xs => rw [moreItems, List.foldl_cons, List.foldl_cons, h.step _ (.inl rfl)]

theorem State.Alike.foldl_moreMembers {s t : State} (h : s.Alike t) (ms : List (String × Json)) :
    (moreMembers ms).foldl Reader.step s = (moreMembers ms).foldl Reader.step t := by
  cases ms with
  | nil => rw [moreMembers, List.foldl_cons, List.foldl_cons, h.step _ (.inr (.inr rfl))]
  | cons m ms => rw [moreMembers, List.foldl_cons, List.foldl_cons, h.step _ (.inl rfl)]

theorem Starts.step_itemOrEnd {c : Char} (hc : Starts c) (stack : List Frame) :
    step ⟨stack, .itemOrEnd⟩ c = step ⟨stack, .value⟩ c := by
  simp [step, hc.not_isSpace, hc.ne]

/-- The first item of an array is read as any value is. -/
theorem foldl_firstItem {v : Json} (hv : v.Integral) (stack : List Frame) :
    v.chars.foldl step ⟨stack, .itemOrEnd⟩ = v.chars.foldl step ⟨stack, .value⟩ := by
  obtain ⟨c, cs, hchars, hc⟩ := exists_starts hv
  rw [hchars, List.foldl_cons, List.foldl_cons, hc.step_itemOrEnd]

mutual
/-- The reader settles the draft of a value whose text it has read. -/
theorem foldl_chars (stack : List Frame) : ∀ {v : Json}, v.Integral →
    stack.length + v.depth ≤ maxDepth →
    (v.chars.foldl step ⟨stack, .value⟩).Alike (settle v.draft stack)
  | .null, _, _ | .bool true, _, _ | .bool false, _, _ => .refl _
  | .num (.int n exact), _, _ => by
    rw [chars, Number.chars, foldl_number Decimal.isPart_integer (Decimal.integer_ne_nil n)]
    exact alike_number (closeNumber_integer stack exact)
  | .str text, _, _ => by
    rw [chars, foldl_quoted text rfl, closeQuote_value]
    exact .refl _
  | .arr [], _, hdepth => by
    rw [depth, itemsDepth] at hdepth
    have hclose : step (inArray stack []) ']' = settle (.arr []) stack :=
      step_inArray_close (by omega) []
    exact hclose ▸ .refl _
  | .arr (x :: xs), h, hdepth => by
    rw [depth, itemsDepth] at hdepth
    have hx := foldl_chars (.array [] :: stack) h.1 (by rw [List.length_cons]; omega)
    have hopen : step ⟨stack, .value⟩ '[' = ⟨.array [] :: stack, .itemOrEnd⟩ := rfl
    rw [chars, List.foldl_cons, hopen, List.foldl_append, foldl_firstItem h.1, hx.foldl_moreItems,
      ← List.reverse_nil, settle_item, foldl_moreItems _ h.2 (by omega)]
    exact .refl _
  | .obj [], _, hdepth => by
    rw [depth, membersDepth] at hdepth
    have hclose : step (inObject stack []) '\x7d' = settle (.obj []) stack :=
      step_inObject_close (by omega) []
    exact hclose ▸ .refl _
  | .obj ((key, v) :: ms), h, hdepth => by
    rw [depth, membersDepth] at hdepth
    have hv := foldl_chars (.member (openMembers []) (some key) :: stack) h.1
      (by rw [List.length_cons]; omega)
    have hopen : step ⟨stack, .value⟩ '\x7b' = ⟨.object [] :: stack, .nameOrEnd⟩ := rfl
    rw [chars, List.foldl_cons, hopen, foldl_member [] key _ rfl, List.foldl_append,
      hv.foldl_moreMembers, settle_member, foldl_moreMembers _ h.2 (by omega)]
    exact .refl _
theorem foldl_moreItems {stack : List Frame} : ∀ {xs : List Json} (ds : List Draft),
    ItemsIntegral xs → stack.length + itemsDepth xs < maxDepth →
    (moreItems xs).foldl step (inArray stack ds) = settle (.arr (ds ++ itemDrafts xs)) stack
  | [], ds, _, hdepth => by
    rw [moreItems, List.foldl_cons, step_inArray_close hdepth, itemDrafts, List.append_nil]
    rfl
  | x :: xs, ds, h, hdepth => by
    rw [itemsDepth] at hdepth
    have hx := foldl_chars (.array ds.reverse :: stack) h.1
      (by rw [List.length_cons]; omega)
    have hcomma : step (inArray stack ds) ',' = ⟨.array ds.reverse :: stack, .value⟩ := rfl
    rw [moreItems, List.foldl_cons, hcomma, List.foldl_append, hx.foldl_moreItems, settle_item,
      foldl_moreItems _ h.2 (by omega), List.append_assoc]
    rfl
theorem foldl_moreMembers {stack : List Frame} : ∀ {ms : List (String × Json)}
    (ns : List (String × Draft)), MembersIntegral ms → stack.length + membersDepth ms < maxDepth →
    (moreMembers ms).foldl step (inObject stack ns) = settle (.obj (ns ++ memberDrafts ms)) stack
  | [], ns, _, hdepth => by
    rw [moreMembers, List.foldl_cons, step_inObject_close hdepth, memberDrafts, List.append_nil]
    rfl
  | (key, v) :: ms, ns, h, hdepth => by
    rw [membersDepth] at hdepth
    have hv := foldl_chars (.member (openMembers ns) (some key) :: stack) h.1
      (by rw [List.length_cons]; omega)
    rw [moreMembers, List.foldl_cons, foldl_member ns key _ rfl, List.foldl_append,
      hv.foldl_moreMembers, settle_member, foldl_moreMembers _ h.2 (by omega), List.append_assoc]
    rfl
end

end Json.Reader

/-- The compact text of a value stands for that value. -/
theorem Json.ofText?_text {v : Json} (hv : v.Distinct) (hnumbers : v.Integral)
    (hdepth : v.depth ≤ Reader.maxDepth) : ofText? v.text = some v := by
  have hread := (Reader.foldl_chars [] hnumbers (by simpa using hdepth)).result
  have hdraft : Draft.ofChars? v.chars = some v.draft := hread
  rw [ofText?, text, String.toList_ofList, ofChars?, hdraft]
  exact hv.value?_draft

end ArchivalQuery
