import ArchivalQuery.Json.Reader
import ArchivalQuery.Proofs.Json.Scanning
import ArchivalQuery.Proofs.Json.Size

/-! # Writing a value that was read

What the reader holds at any time takes no more bytes than it has read: no escape is shorter than the
character it stands for, blanks are dropped, and an exact integer has no more digits than its
numeral.  So the compact text of a value without floats is no longer than the text it is read from.
A float may be longer than its numeral, as an exponent is written out in places.
-/
namespace ArchivalQuery
open Decimal (Numeral)
open String (utf8Len)

namespace Decimal.Numeral

theorem parts_of_withTail? {m n : Numeral} {cs : List Char} (h : m.withTail? cs = some n) :
    n.negative = m.negative ∧ n.whole = m.whole := by
  unfold withTail? at h
  split at h
  · obtain rfl := Option.some.inj h
    exact ⟨rfl, rfl⟩
  · rw [Option.ite_none_right_eq_some] at h
    rcases Option.map_eq_some_iff.mp h.2 with ⟨e, -, rfl⟩
    exact ⟨rfl, rfl⟩

theorem parts_of_unsigned? {negative : Bool} {cs : List Char} {n : Numeral}
    (h : unsigned? negative cs = some n) :
    n.negative = negative ∧ n.whole = cs.takeWhile Char.isDigit ∧ n.whole ≠ [] := by
  unfold unsigned? at h
  dsimp only at h
  rw [Option.ite_none_left_eq_some] at h
  rcases h with ⟨hwhole, h⟩
  have hne : cs.takeWhile Char.isDigit ≠ [] := by
    intro hnil
    simp [hnil] at hwhole
  split at h
  · rw [Option.ite_none_left_eq_some] at h
    rcases parts_of_withTail? h.2 with ⟨hsign, hdigits⟩
    exact ⟨hsign, hdigits, hdigits ▸ hne⟩
  · rcases parts_of_withTail? h with ⟨hsign, hdigits⟩
    exact ⟨hsign, hdigits, hdigits ▸ hne⟩

/-- The whole digits of a numeral, after its sign if it has one, are some of its characters. -/
theorem whole_of_ofChars? {cs : List Char} {n : Numeral} (h : ofChars? cs = some n) :
    n.whole ≠ [] ∧ (∀ c ∈ n.whole, c.isDigit) ∧
      n.whole.length + n.negative.toNat ≤ cs.length := by
  have digits {ds : List Char} : ∀ c ∈ ds.takeWhile Char.isDigit, c.isDigit :=
    List.all_eq_true.mp List.all_takeWhile
  have short {ds : List Char} : (ds.takeWhile Char.isDigit).length ≤ ds.length :=
    (List.takeWhile_prefix _).length_le
  unfold ofChars? at h
  split at h
  · rcases parts_of_unsigned? h with ⟨hsign, hwhole, hne⟩
    refine ⟨hne, hwhole ▸ digits, ?_⟩
    rw [hwhole, hsign, List.length_cons]
    exact Nat.succ_le_succ short
  · rcases parts_of_unsigned? h with ⟨hsign, hwhole, hne⟩
    refine ⟨hne, hwhole ▸ digits, ?_⟩
    rw [hwhole, hsign]
    exact short

end Decimal.Numeral

namespace Json.Number

/-- So long as all digits have found room, the leading word has as many places as there were
digits. -/
theorem leading_whole_lt {p : Digits} {c : Char} (hc : c.isDigit) {k : Nat}
    (hp : p.full = false → p.leading < 10 ^ k) (h : (p.whole c).full = false) :
    (p.whole c).leading < 10 ^ (k + 1) := by
  have hdigit : c.toNat - '0'.toNat ≤ 9 := by
    unfold Char.isDigit at hc
    simp only [Bool.and_eq_true, decide_eq_true_eq] at hc
    have hnine : c.toNat ≤ '9'.toNat := hc.2
    have hzero : '0'.toNat = 48 := rfl
    have hlast : '9'.toNat = 57 := rfl
    omega
  unfold Digits.whole at h ⊢
  split
  · rename_i n hn
    rw [hn] at h
    have hlt := hp h
    unfold Digits.extend? at hn
    rw [Option.ite_none_left_eq_some, Option.ite_none_right_eq_some] at hn
    obtain rfl := Option.some.inj hn.2.2
    dsimp only
    rw [Nat.pow_succ]
    omega
  · rename_i hn
    rw [hn] at h
    cases h

theorem leading_foldl_lt {ds : List Char} (hds : ∀ c ∈ ds, c.isDigit) {p : Digits} {k : Nat}
    (hp : p.full = false → p.leading < 10 ^ k) (h : (ds.foldl Digits.whole p).full = false) :
    (ds.foldl Digits.whole p).leading < 10 ^ (k + ds.length) := by
  induction ds generalizing p k with
  | nil => exact hp h
  | cons c ds ih =>
    rw [List.forall_mem_cons] at hds
    have hlt := ih hds.2 (leading_whole_lt hds.1 hp) h
    rwa [Nat.add_right_comm, Nat.add_assoc] at hlt

theorem ofDigits?_ne_int {negative : Bool} {p : Digits} {k : Int} {exact : Exact k} :
    ofDigits? negative p ≠ some (int k exact) := by
  unfold ofDigits?
  simp

/-- An integer that is kept exact is a word of whole digits that all found room. -/
theorem ofNumeral?_eq_int {n : Numeral} {k : Int} {exact : Exact k}
    (h : ofNumeral? n = some (int k exact)) :
    (n.whole.foldl Digits.whole {}).full = false ∧
      k.natAbs = (n.whole.foldl Digits.whole {}).leading ∧ (k < 0 → n.negative = true) := by
  unfold ofNumeral? at h
  dsimp only at h
  split at h
  · unfold withExponent? at h
    split at h
    · exact absurd h ofDigits?_ne_int
    · rw [Option.ite_none_right_eq_some] at h
      cases h.2
  · split at h
    · unfold ofWhole? at h
      split at h
      · exact absurd h ofDigits?_ne_int
      · rename_i hfull
        refine ⟨Bool.eq_false_iff.mpr hfull, ?_⟩
        split at h
        · rename_i hnegative
          split at h
          · cases h
            exact ⟨by simp, fun _ => hnegative⟩
          · exact absurd h ofDigits?_ne_int
        · split at h
          · cases h
            exact ⟨by simp, fun hneg => absurd hneg (by omega)⟩
          · exact absurd h ofDigits?_ne_int
    · exact absurd h ofDigits?_ne_int

/-- An exact integer has no more characters than its numeral. -/
theorem length_integer_le {cs : List Char} {n : Numeral} (hn : Numeral.ofChars? cs = some n)
    {k : Int} {exact : Exact k} (hk : ofNumeral? n = some (int k exact)) :
    (Decimal.integer k).length ≤ cs.length := by
  rcases Numeral.whole_of_ofChars? hn with ⟨hne, hdigits, hlength⟩
  rcases ofNumeral?_eq_int hk with ⟨hfull, hnat, hneg⟩
  have hlt := leading_foldl_lt hdigits (k := 0) (fun _ => Nat.one_pos) hfull
  rw [Nat.zero_add, ← hnat] at hlt
  have hplaces : (Nat.toDigits 10 k.natAbs).length ≤ n.whole.length :=
    (Nat.length_toDigits_le_iff (by decide) (List.length_pos_of_ne_nil hne)).mpr hlt
  unfold Decimal.integer Decimal.digits
  split
  · rename_i hlow
    rw [hneg hlow, Bool.toNat_true] at hlength
    rw [List.length_cons]
    omega
  · omega

end Json.Number

namespace Json.Reader

/-- The bytes of a name and its quotes; a name without a value has none. -/
def nameSize : Option String → Nat
  | some name => quotedSize name
  | none => 0

/-- The bytes of the members of an open object, each with what follows it. -/
def openSize : List (Option String × Draft) → Nat
  | [] => 0
  | m :: ms => nameSize m.1 + 1 + m.2.size + 1 + openSize ms

/-- The bytes of an open container that waits for its next part. -/
def Frame.size : Frame → Nat
  | array ds => Draft.itemsSize ds + 1
  | object ms => openSize ms + 1
  | member ms name => openSize ms + nameSize name + 2

/-- The bytes of an open container up to the end of its latest part. -/
def Frame.readSize : Frame → Nat
  | array ds => max 1 (Draft.itemsSize ds)
  | object ms => max 1 (openSize ms)
  | member _ _ => 0

/-- The bytes of the open containers where the innermost one waits for its next part. -/
def stackSize : List Frame → Nat
  | [] => 0
  | f :: fs => f.size + stackSize fs

def readSize : List Frame → Nat
  | [] => 0
  | f :: fs => f.readSize + stackSize fs

def Escape.size : Escape → Nat
  | none => 0
  | backslash => 1
  | unit left _ high => 6 - left + if high.isSome then 6 else 0
  | partnerBackslash _ => 6
  | partnerLetter _ => 7

def Quote.size (q : Quote) : Nat := utf8Len (q.read.flatMap escape) + 1

/-- The bytes of what a state holds, in compact form. -/
def State.size (s : State) : Nat :=
  match s.mode with
  | .value | .itemOrEnd | .nameOrEnd | .name => stackSize s.stack
  | .colon name => stackSize s.stack + nameSize name
  | .next => readSize s.stack
  | .quoted q escape => stackSize s.stack + q.size + escape.size
  | .word left d => stackSize s.stack + (d.size - left.length)
  | .number read => stackSize s.stack + utf8Len read
  | .finished d => d.size
  | .failed => 0

theorem size_failure_le (n : Nat) : State.failure.size ≤ n := Nat.zero_le n

theorem readSize_le (stack : List Frame) : readSize stack ≤ stackSize stack := by
  match stack with
  | [] => exact Nat.zero_le _
  | .array ds :: stack | .object ms :: stack | .member ms k :: stack =>
    simp only [readSize, Frame.readSize, stackSize, Frame.size]
    omega

/-- The order of the parts does not matter to a size that adds them up. -/
theorem size_reverse {α : Type} {f : List α → Nat} {g : α → Nat} (hnil : f [] = 0)
    (hcons : ∀ x xs, f (x :: xs) = g x + f xs) (xs : List α) : f xs.reverse = f xs := by
  have hsum (xs : List α) : f xs = (xs.map g).sum := by
    induction xs with
    | nil => exact hnil
    | cons x xs ih => rw [hcons, ih, List.map_cons, List.sum_cons]
  rw [hsum, hsum, List.map_reverse, List.sum_reverse]

theorem itemsSize_reverse (ds : List Draft) :
    Draft.itemsSize ds.reverse = Draft.itemsSize ds :=
  size_reverse rfl (fun _ _ => rfl) ds

theorem openSize_reverse (ms : List (Option String × Draft)) :
    openSize ms.reverse = openSize ms :=
  size_reverse rfl (fun _ _ => rfl) ms

theorem openSize_named (ms : List (String × Draft)) :
    openSize (ms.map fun m => (some m.1, m.2)) = Draft.membersSize ms := by
  induction ms with
  | nil => rfl
  | cons m ms ih =>
    rw [Draft.membersSize, ← ih, List.map_cons, openSize, nameSize]

theorem size_object_le (ms : List (Option String × Draft)) :
    (object ms).size ≤ max 1 (openSize ms) + 1 := by
  unfold object
  split
  · rename_i named hnamed
    rw [Draft.size, ← openSize_named, ← eq_map_of_named hnamed, openSize_reverse]
  · exact Nat.zero_le _

section Steps
variable {stack : List Frame} {c : Char}

theorem size_settle_le (d : Draft) (stack : List Frame) :
    (settle d stack).size ≤ stackSize stack + d.size := by
  unfold settle
  split
  · exact Nat.le_add_left _ _
  · simp only [State.size, readSize, Frame.readSize, stackSize, Frame.size, Draft.itemsSize]
    omega
  · simp only [State.size, readSize, Frame.readSize, stackSize, Frame.size, openSize]
    omega
  · exact size_failure_le _

theorem size_close_le (d : Draft) (stack : List Frame) :
    (close d stack).size ≤ stackSize stack + d.size := by
  refine Nat.le_trans (size_settle_le _ stack) (Nat.add_le_add_left ?_ _)
  split
  · exact Nat.le_refl _
  · exact Nat.zero_le _

theorem size_afterValue_le (stack : List Frame) (c : Char) :
    (afterValue stack c).size ≤ readSize stack + c.utf8Size := by
  have hpos := c.utf8Size_pos
  match stack with
  | .array ds :: stack =>
    have hclose := size_close_le (.arr ds.reverse) stack
    rw [Draft.size, itemsSize_reverse] at hclose
    rw [afterValue, readSize, Frame.readSize]
    split_ifs
    · simp only [State.size, stackSize, Frame.size]
      omega
    · omega
    · exact size_failure_le _
  | .object ms :: stack =>
    have hclose := size_close_le (object ms) stack
    have hobject := size_object_le ms
    rw [afterValue, readSize, Frame.readSize]
    split_ifs
    · simp only [State.size, stackSize, Frame.size]
      omega
    · omega
    · exact size_failure_le _
  | [] => exact size_failure_le _
  | .member _ _ :: _ => exact size_failure_le _

/-- An opening quote. -/
theorem size_openQuote_le (isName : Bool) (stack : List Frame) (c : Char) :
    State.size ⟨stack, .quoted { isName } .none⟩ ≤ stackSize stack + c.utf8Size :=
  Nat.add_le_add_left c.utf8Size_pos _

theorem size_startValue_le (stack : List Frame) (c : Char) :
    (startValue stack c).size ≤ stackSize stack + c.utf8Size := by
  have hpos := c.utf8Size_pos
  unfold startValue
  split_ifs
  · exact size_openQuote_le false stack c
  · simp only [State.size, stackSize, Frame.size, Draft.itemsSize]
    omega
  · simp only [State.size, stackSize, Frame.size, openSize]
    omega
  · exact Nat.add_le_add_left hpos _
  · exact Nat.add_le_add_left hpos _
  · exact Nat.add_le_add_left hpos _
  · simp only [State.size, String.utf8Len_cons, String.utf8Len_nil]
    omega
  · exact size_failure_le _

theorem utf8Size_hexDigit : ∀ n < 16, (hexDigit n).utf8Size = 1 := by
  decide

theorem utf8Len_escape_le (c : Char) : utf8Len (escape c) ≤ 6 := by
  unfold escape
  split_ifs
  all_goals try decide
  · rename_i hcontrol
    have hhigh := utf8Size_hexDigit (c.toNat / 16) (by omega)
    have hlow := utf8Size_hexDigit (c.toNat % 16) (Nat.mod_lt _ (by decide))
    have hshort : utf8Len ['\\', 'u', '0', '0'] = 4 := rfl
    simp only [String.utf8Len_cons, String.utf8Len_nil, hhigh, hlow] at hshort ⊢
    omega
  · have hfour := c.utf8Size_le_four
    rw [String.utf8Len_cons, String.utf8Len_nil]
    omega

/-- The characters that stand for themselves inside quotes. -/
theorem escape_eq_self {c : Char} (hquote : c ≠ '"') (hback : c ≠ '\\')
    (hcontrol : ¬c.toNat < 0x20) : escape c = [c] := by
  unfold escape
  rw [if_neg hquote, if_neg hback]
  split_ifs with hc hc hc hc hc
  all_goals first
    | rfl
    | subst hc
      exact absurd (by decide) hcontrol

theorem utf8Len_escape_unescape?_le {c d : Char} (h : unescape? c = some d) :
    utf8Len (escape d) ≤ 2 := by
  unfold unescape? at h
  split_ifs at h with hself
  · obtain rfl := Option.some.inj h
    rcases hself with rfl | rfl | rfl <;> decide
  all_goals
    cases h
    decide

theorem utf8Len_flatMap_escape_reverse (cs : List Char) :
    utf8Len (cs.reverse.flatMap escape) = utf8Len (cs.flatMap escape) :=
  size_reverse (f := fun cs => utf8Len (cs.flatMap escape)) rfl
    (fun c cs => by rw [List.flatMap_cons, String.utf8Len_append]) cs

theorem size_push (q : Quote) (c : Char) : (q.push c).size = q.size + utf8Len (escape c) := by
  rw [Quote.size, Quote.size, Quote.push, List.flatMap_cons, String.utf8Len_append]
  omega

theorem size_spoil (q : Quote) : q.spoil.size = q.size := rfl

theorem nameSize_text?_le (q : Quote) : nameSize q.text? ≤ q.size + 1 := by
  have hquote : Char.utf8Size '"' = 1 := rfl
  unfold Quote.text?
  split
  · rw [nameSize, quotedSize, quoted, String.toList_ofList, String.utf8Len_cons,
      String.utf8Len_append, utf8Len_flatMap_escape_reverse, String.utf8Len_cons, hquote,
      String.utf8Len_nil, Quote.size]
  · exact Nat.zero_le _

theorem size_closeQuote_le (stack : List Frame) (q : Quote) :
    (closeQuote stack q).size ≤ stackSize stack + q.size + 1 := by
  have hname := nameSize_text?_le q
  unfold closeQuote
  split_ifs
  · simp only [State.size]
    omega
  · rw [Nat.add_assoc]
    refine Nat.le_trans (size_settle_le _ stack) (Nat.add_le_add_left ?_ _)
    cases ht : q.text? with
    | none => exact Nat.zero_le _
    | some s =>
      rw [ht] at hname
      exact hname

theorem size_inQuotes_le (stack : List Frame) (q : Quote) (c : Char) :
    (inQuotes stack q c).size ≤ stackSize stack + q.size + c.utf8Size := by
  have hpos := c.utf8Size_pos
  have hclose := size_closeQuote_le stack q
  unfold inQuotes
  split_ifs with hquote hback hcontrol
  · omega
  · simp only [State.size, Escape.size]
    omega
  · exact size_failure_le _
  · have hself := escape_eq_self hquote hback hcontrol
    simp only [State.size, Escape.size, size_push, hself, String.utf8Len_cons, String.utf8Len_nil]
    omega

theorem size_afterBackslash_le (stack : List Frame) (q : Quote) (c : Char) :
    (afterBackslash stack q c).size ≤ stackSize stack + q.size + 1 + c.utf8Size := by
  have hpos := c.utf8Size_pos
  unfold afterBackslash
  split_ifs
  · simp only [State.size, Escape.size, Option.isSome_none, Bool.false_eq_true, if_false]
    omega
  · split
    · rename_i d hd
      have hescape := utf8Len_escape_unescape?_le hd
      simp only [State.size, Escape.size, size_push]
      omega
    · exact size_failure_le _

theorem size_finishUnit_le (stack : List Frame) (q : Quote) (n : Nat) (high : Option Nat) :
    (finishUnit stack q n high).size ≤ stackSize stack + q.size + 6 +
      if high.isSome then 6 else 0 := by
  cases high with
  | none =>
    have hc := utf8Len_escape_le (Char.ofNat n)
    unfold finishUnit
    dsimp only
    split_ifs
    all_goals
      simp only [State.size, Escape.size, size_push, size_spoil]
      omega
  | some high =>
    have hc := utf8Len_escape_le (Char.ofNat (0x10000 + (high - 0xD800) * 0x400 + (n - 0xDC00)))
    unfold finishUnit
    dsimp only
    split_ifs
    all_goals
      simp only [State.size, Escape.size, size_push, size_spoil]
      omega

theorem size_stepQuoted_le (stack : List Frame) (q : Quote) (c : Char) (escape : Escape) :
    (stepQuoted stack q c escape).size ≤ stackSize stack + q.size + escape.size + c.utf8Size := by
  have hpos := c.utf8Size_pos
  cases escape with
  | none => exact size_inQuotes_le stack q c
  | backslash => exact size_afterBackslash_le stack q c
  | unit left value high =>
    unfold stepQuoted
    dsimp only
    split
    · exact size_failure_le _
    · rename_i d _
      split_ifs
      · have hfinish := size_finishUnit_le stack q (value * 16 + d) high
        simp only [Escape.size]
        omega
      · simp only [State.size, Escape.size]
        omega
  | partnerBackslash high =>
    have hanew := size_inQuotes_le stack q.spoil c
    rw [size_spoil] at hanew
    unfold stepQuoted
    dsimp only
    split_ifs
    · simp only [State.size, Escape.size]
      omega
    · simp only [Escape.size]
      omega
  | partnerLetter high =>
    have hanew := size_afterBackslash_le stack q.spoil c
    rw [size_spoil] at hanew
    unfold stepQuoted
    dsimp only
    split_ifs
    · simp only [State.size, Escape.size, Option.isSome_some, if_true]
      omega
    · simp only [Escape.size]
      omega

theorem length_le_utf8Len (cs : List Char) : cs.length ≤ utf8Len cs := by
  induction cs with
  | nil => exact Nat.le_refl 0
  | cons c cs ih =>
    rw [List.length_cons, String.utf8Len_cons]
    exact Nat.add_le_add ih c.utf8Size_pos

theorem size_closeNumber_le (stack : List Frame) (read : List Char) :
    (closeNumber stack read).size ≤ stackSize stack + utf8Len read := by
  unfold closeNumber
  split
  · exact size_failure_le _
  · rename_i n hn
    refine Nat.le_trans (size_settle_le _ stack) (Nat.add_le_add_left ?_ _)
    split
    · rename_i x hx
      cases x with
      | int k exact =>
        have hlength := Number.length_integer_le hn hx
        rw [List.length_reverse] at hlength
        exact Nat.le_trans hlength (length_le_utf8Len read)
      | float x => exact Nat.zero_le _
    · exact Nat.zero_le _

theorem size_step_number_le (stack : List Frame) (read : List Char) (c : Char) :
    (step ⟨stack, .number read⟩ c).size ≤ stackSize stack + utf8Len read + c.utf8Size := by
  have hclose := size_closeNumber_le stack read
  unfold step
  dsimp only
  split_ifs with hpart
  · simp only [State.size, String.utf8Len_cons]
    omega
  · split
    · omega
    · omega
  · split
    · omega
    · rcases closeNumber_next_or_nil stack read with hnext | hnil
      · have hafter := size_afterValue_le (closeNumber stack read).stack c
        have hdone : (closeNumber stack read).size = readSize (closeNumber stack read).stack := by
          rw [State.size, hnext]
        omega
      · rw [hnil]
        exact size_failure_le _

end Steps

/-- A character adds its own bytes at most. -/
theorem size_step_le (s : State) (c : Char) : (step s c).size ≤ s.size + c.utf8Size := by
  have hpos := c.utf8Size_pos
  rcases s with ⟨stack, mode⟩
  have hread := readSize_le stack
  have hafter := size_afterValue_le stack c
  have hstart := size_startValue_le stack c
  cases mode with
  | quoted q escape => exact size_stepQuoted_le stack q c escape
  | failed => exact Nat.zero_le _
  | number read => exact size_step_number_le stack read c
  | word left d =>
    match left with
    | [] => exact size_failure_le _
    | x :: left =>
      rw [step_word]
      split_ifs
      · match left with
        | [] =>
          have hsettle := size_settle_le d stack
          have hword : State.size ⟨stack, .word [x] d⟩ = stackSize stack + (d.size - 1) := rfl
          dsimp only
          omega
        | y :: left =>
          simp only [State.size, List.length_cons]
          omega
      · exact size_failure_le _
  | finished d =>
    unfold step
    dsimp only
    split_ifs
    · exact Nat.le_add_right _ _
    · exact size_failure_le _
  | value =>
    unfold step
    dsimp only
    split_ifs
    · exact Nat.le_add_right _ _
    · exact hstart
  | itemOrEnd =>
    unfold step
    dsimp only
    split_ifs
    · exact Nat.le_add_right _ _
    · exact Nat.le_trans hafter (Nat.add_le_add_right hread _)
    · exact hstart
  | nameOrEnd =>
    unfold step
    dsimp only
    split_ifs
    · exact Nat.le_add_right _ _
    · exact Nat.le_trans hafter (Nat.add_le_add_right hread _)
    · exact size_openQuote_le true stack c
    · exact size_failure_le _
  | name =>
    unfold step
    dsimp only
    split_ifs
    · exact Nat.le_add_right _ _
    · exact size_openQuote_le true stack c
    · exact size_failure_le _
  | colon k =>
    unfold step
    dsimp only
    split
    · exact Nat.le_add_right _ _
    · match stack with
      | .object ms :: stack =>
        dsimp only
        split_ifs
        · simp only [State.size, stackSize, Frame.size]
          omega
        · exact size_failure_le _
      | [] | .array _ :: _ | .member _ _ :: _ => exact size_failure_le _
  | next =>
    unfold step
    dsimp only
    split_ifs
    · exact Nat.le_add_right _ _
    · exact hafter

theorem size_foldl_step_le (cs : List Char) (s : State) :
    (cs.foldl step s).size ≤ s.size + utf8Len cs := by
  induction cs generalizing s with
  | nil => exact Nat.le_refl _
  | cons c cs ih =>
    have hc := size_step_le s c
    have hcs := ih (step s c)
    rw [List.foldl_cons, String.utf8Len_cons]
    omega

theorem size_result_le {s : State} {d : Draft} (h : s.result = some d) : d.size ≤ s.size := by
  rcases s with ⟨stack, mode⟩
  cases mode with
  | finished e =>
    obtain rfl := Option.some.inj h
    exact Nat.le_refl _
  | number read =>
    unfold State.result at h
    dsimp only at h
    split at h
    · rename_i e hmode
      obtain rfl := Option.some.inj h
      have hclose := size_closeNumber_le stack read
      rw [State.size, hmode] at hclose
      exact hclose
    · cases h
  | _ => cases h

end Json.Reader

/-- A draft takes no more bytes than the text it is read from. -/
theorem Json.Draft.size_le {text : String} {d : Json.Draft} (h : Json.Draft.ofText? text = some d) :
    d.size ≤ text.utf8ByteSize := by
  have hrun := Json.Reader.size_foldl_step_le text.toList {}
  have hempty : Json.Reader.State.size {} = 0 := rfl
  rw [String.utf8Len_toList, hempty, Nat.zero_add] at hrun
  exact Nat.le_trans (Json.Reader.size_result_le h) hrun

/-- The compact text of a value without floats is no longer than the text it is read from. -/
theorem Json.utf8ByteSize_text_le {text : String} {v : Json} (h : Json.ofText? text = some v)
    (hv : v.Integral) : v.text.utf8ByteSize ≤ text.utf8ByteSize := by
  rcases Option.bind_eq_some_iff.mp h with ⟨d, hd, hdv⟩
  rw [Json.utf8ByteSize_text hv]
  exact Nat.le_trans (Json.Draft.size_value?_le hdv) (Json.Draft.size_le hd)

end ArchivalQuery
