import ArchivalQuery.Gate
import ArchivalQuery.Proofs.Json.Depth

/-! # The nesting of written values

The scan of brackets over the compact text of a value finds as many open at once as containers stand
around its innermost part: brackets inside strings are quoted, and no other part of the text holds
one.
-/
namespace ArchivalQuery
open Decimal (Numeral)

theorem Decimal.isPart_of_isDigit {c : Char} (h : c.isDigit) : Numeral.isPart c := by
  simp [Numeral.isPart, h]

theorem Decimal.isPart_digits {n : Nat} : ∀ c ∈ digits n, Numeral.isPart c := fun _ hc =>
  isPart_of_isDigit (Nat.isDigit_of_mem_toDigits (by decide) (by decide) hc)

theorem Decimal.isPart_integer {n : Int} : ∀ c ∈ integer n, Numeral.isPart c := by
  unfold integer
  split
  · exact List.forall_mem_cons.mpr ⟨by decide, isPart_digits⟩
  · exact isPart_digits

theorem Decimal.Layout.isPart_plain {ds : List Char} (hds : ∀ c ∈ ds, Numeral.isPart c) (e : Int) :
    ∀ c ∈ plain ds e, Numeral.isPart c := by
  have hzeros (n : Nat) : ∀ c ∈ List.replicate n '0', Numeral.isPart c := by
    intro c hc
    rw [List.eq_of_mem_replicate hc]
    decide
  have hpoint : Numeral.isPart '.' := by decide
  have hzero : Numeral.isPart '0' := by decide
  unfold plain
  split
  · simp only [List.forall_mem_cons, List.forall_mem_append]
    exact ⟨hzero, hpoint, hzeros _, hds⟩
  · split
    · simp only [List.forall_mem_cons, List.forall_mem_append]
      exact ⟨⟨hds, hzeros _⟩, hpoint, hzero, by simp⟩
    · simp only [List.forall_mem_cons, List.forall_mem_append]
      exact ⟨fun c hc => hds c (List.mem_of_mem_take hc), hpoint,
        fun c hc => hds c (List.mem_of_mem_drop hc)⟩

theorem Decimal.Layout.isPart_scientific {l : Layout} (hl : Numeral.isPart l.mark) {ds : List Char}
    (hds : ∀ c ∈ ds, Numeral.isPart c) (e : Int) : ∀ c ∈ l.scientific ds e, Numeral.isPart c := by
  have hpoint : Numeral.isPart '.' := by decide
  unfold scientific
  simp only [List.forall_mem_cons, List.forall_mem_append]
  refine ⟨?_, hl, ?_, isPart_digits⟩
  · split
    · simp only [List.forall_mem_cons] at hds ⊢
      exact ⟨hds.1, hpoint, hds.2⟩
    · exact hds
  · split
    · exact List.all_eq_true.mp rfl
    · split <;> exact List.all_eq_true.mp rfl

theorem Decimal.Layout.isPart_chars {l : Layout} (hl : Numeral.isPart l.mark) (x : Binary64) :
    ∀ c ∈ l.chars x, Numeral.isPart c := by
  have hmagnitude (w : Nat) : ∀ c ∈ l.magnitude w, Numeral.isPart c := by
    unfold magnitude
    split
    · exact List.all_eq_true.mp rfl
    · dsimp only
      split
      · exact isPart_plain isPart_digits _
      · exact isPart_scientific hl isPart_digits _
  unfold chars
  split
  · exact List.forall_mem_cons.mpr ⟨by decide, hmagnitude _⟩
  · exact hmagnitude _

theorem Json.Number.isPart_chars (n : Number) : ∀ c ∈ n.chars, Numeral.isPart c := by
  cases n with
  | int n _ => exact Decimal.isPart_integer
  | float x => exact Decimal.Layout.isPart_chars (by decide) x

namespace Gate.Scan
variable {s : Scan}

/-- The characters that a scan passes over where they are not quoted. -/
def Plain (c : Char) : Prop := c ∉ ['"', '[', '\x7b', ']', '\x7d']

theorem plain_of_isPart {c : Char} (h : Numeral.isPart c) : Plain c := by
  intro hc
  simp only [List.mem_cons, List.not_mem_nil, or_false] at hc
  rcases hc with rfl | rfl | rfl | rfl | rfl <;> revert h <;> decide

/-- The letters of words are passed over. -/
theorem plain_word {cs : List Char} (h : cs.all Char.isLower) : ∀ c ∈ cs, Plain c := by
  intro c hc hbracket
  have hlower := List.all_eq_true.mp h c hc
  simp only [List.mem_cons, List.not_mem_nil, or_false] at hbracket
  rcases hbracket with rfl | rfl | rfl | rfl | rfl <;> revert hlower <;> decide

theorem step_plain (hs : s.quoted = false) {c : Char} (hc : Plain c) : s.step c = s := by
  unfold Plain at hc
  simp only [List.mem_cons, List.not_mem_nil, or_false, not_or] at hc
  simp [step, hs, hc]

theorem foldl_plain (hs : s.quoted = false) {cs : List Char} (hcs : ∀ c ∈ cs, Plain c) :
    cs.foldl step s = s := by
  induction cs with
  | nil => rfl
  | cons c cs ih =>
    rw [List.forall_mem_cons] at hcs
    rw [List.foldl_cons, step_plain hs hcs.1, ih hcs.2]

/-- A scan inside quotes, with no escape begun. -/
structure Inside (s : Scan) : Prop where
  quoted : s.quoted = true
  escaped : s.escaped = false

/-- A scan outside quotes, where the brackets that are open have been counted. -/
structure Outside (s : Scan) : Prop where
  quoted : s.quoted = false
  escaped : s.escaped = false
  counted : s.depth ≤ s.deepest

theorem Inside.step (hs : s.Inside) {c : Char} (hquote : c ≠ '"') (hback : c ≠ '\\') :
    s.step c = s := by
  simp [Scan.step, hs.quoted, hs.escaped, hquote, hback]

/-- An escape is passed over as one character. -/
theorem Inside.step_escaped (hs : s.Inside) (c : Char) : (s.step '\\').step c = s := by
  rcases s with ⟨depth, deepest, quoted, escaped⟩
  obtain ⟨rfl, rfl⟩ : quoted = true ∧ escaped = false := ⟨hs.quoted, hs.escaped⟩
  simp [Scan.step]

theorem hexDigit_ne : ∀ n < 16, Json.hexDigit n ≠ '"' ∧ Json.hexDigit n ≠ '\\' := by
  decide

theorem Inside.foldl_escape (hs : s.Inside) (c : Char) : (Json.escape c).foldl Scan.step s = s := by
  by_cases hshort : ∃ d, Json.escape c = ['\\', d]
  · rcases hshort with ⟨d, hd⟩
    rw [hd]
    exact hs.step_escaped d
  · unfold Json.escape at hshort ⊢
    split_ifs at hshort ⊢
    all_goals try exact absurd ⟨_, rfl⟩ hshort
    · rename_i hcontrol
      have hhigh := hexDigit_ne (c.toNat / 16) (by omega)
      have hlow := hexDigit_ne (c.toNat % 16) (Nat.mod_lt _ (by decide))
      simp only [List.foldl_cons, List.foldl_nil, hs.step_escaped, hs.step hhigh.1 hhigh.2,
        hs.step hlow.1 hlow.2, hs.step (c := '0') (by decide) (by decide)]
    · rename_i hquote hback _ _ _ _ _ _
      exact hs.step hquote hback

theorem Inside.foldl_text (hs : s.Inside) (cs : List Char) :
    (cs.flatMap Json.escape).foldl Scan.step s = s := by
  induction cs with
  | nil => rfl
  | cons c cs ih => rw [List.flatMap_cons, List.foldl_append, hs.foldl_escape, ih]

/-- A string in quotes is passed over. -/
theorem Outside.foldl_quoted (hs : s.Outside) (text : String) :
    (Json.quoted text).foldl Scan.step s = s := by
  rcases s with ⟨depth, deepest, quoted, escaped⟩
  obtain ⟨rfl, rfl⟩ : quoted = false ∧ escaped = false := ⟨hs.quoted, hs.escaped⟩
  have hinside : Inside ⟨depth, deepest, true, false⟩ := ⟨rfl, rfl⟩
  have hopen : Scan.step ⟨depth, deepest, false, false⟩ '"' = ⟨depth, deepest, true, false⟩ := rfl
  rw [Json.quoted, List.foldl_cons, hopen, List.foldl_append, hinside.foldl_text]
  rfl

/-- The scan after more brackets have been opened, `n` at once, and closed again. -/
def reach (s : Scan) (n : Nat) : Scan := { s with deepest := max s.deepest (s.depth + n) }

theorem Outside.reach_zero (hs : s.Outside) : s.reach 0 = s := by
  rw [Scan.reach, Nat.add_zero, Nat.max_eq_left hs.counted]

theorem Outside.reach (hs : s.Outside) (n : Nat) : (s.reach n).Outside :=
  ⟨hs.quoted, hs.escaped, Nat.le_trans hs.counted (Nat.le_max_left _ _)⟩

def opened (s : Scan) : Scan :=
  { s with depth := s.depth + 1, deepest := max s.deepest (s.depth + 1) }

def closed (s : Scan) : Scan := { s with depth := s.depth - 1 }

theorem Outside.opened (hs : s.Outside) : s.opened.Outside :=
  ⟨hs.quoted, hs.escaped, Nat.le_max_right _ _⟩

theorem Outside.step_open (hs : s.Outside) {c : Char} (hc : c = '[' ∨ c = '\x7b') :
    s.step c = s.opened := by
  rcases hc with rfl | rfl <;> simp [Scan.step, Scan.opened, hs.quoted]

theorem Outside.step_close (hs : s.Outside) {c : Char} (hc : c = ']' ∨ c = '\x7d') :
    s.step c = s.closed := by
  rcases hc with rfl | rfl <;> simp [Scan.step, Scan.closed, hs.quoted]

theorem closed_opened (n : Nat) : (s.opened.reach n).closed = s.reach (n + 1) := by
  simp only [closed, opened, reach, Nat.add_sub_cancel, mk.injEq, and_true, true_and]
  omega

theorem reach_reach (m n : Nat) : (s.reach m).reach n = s.reach (max m n) := by
  simp only [reach, mk.injEq, and_true, true_and]
  omega

theorem Outside.step_comma (hs : s.Outside) : s.step ',' = s :=
  step_plain hs.quoted (by unfold Plain; decide)

theorem Outside.step_colon (hs : s.Outside) : s.step ':' = s :=
  step_plain hs.quoted (by unfold Plain; decide)

/-- A member is passed over up to its value. -/
theorem Outside.foldl_member (hs : s.Outside) (key : String) (cs : List Char) :
    (Json.quoted key ++ ':' :: cs).foldl Scan.step s = cs.foldl Scan.step s := by
  rw [List.foldl_append, hs.foldl_quoted, List.foldl_cons, hs.step_colon]

theorem Outside.foldl_word (hs : s.Outside) {cs : List Char} (hcs : ∀ c ∈ cs, Plain c) :
    cs.foldl Scan.step s = s.reach 0 := by
  rw [foldl_plain hs.quoted hcs, hs.reach_zero]

mutual
/-- The scan of the text of a value opens as many brackets at once as the value is deep. -/
theorem Outside.foldl_chars {s : Scan} (hs : s.Outside) :
    ∀ v : Json, v.chars.foldl Scan.step s = s.reach v.depth
  | .null | .bool true | .bool false => hs.foldl_word (plain_word rfl)
  | .num n => hs.foldl_word fun c hc => plain_of_isPart (n.isPart_chars c hc)
  | .str t => (hs.foldl_quoted t).trans hs.reach_zero.symm
  | .arr [] => by
    rw [Json.chars, List.foldl_cons, hs.step_open (.inl rfl), List.foldl_cons,
      hs.opened.step_close (.inl rfl), ← hs.opened.reach_zero, closed_opened]
    rfl
  | .arr (x :: xs) => by
    rw [Json.chars, List.foldl_cons, hs.step_open (.inl rfl), List.foldl_append,
      Outside.foldl_chars hs.opened x, Outside.foldl_moreItems (hs.opened.reach _) xs, reach_reach,
      closed_opened]
    rfl
  | .obj [] => by
    rw [Json.chars, List.foldl_cons, hs.step_open (.inr rfl), List.foldl_cons,
      hs.opened.step_close (.inr rfl), ← hs.opened.reach_zero, closed_opened]
    rfl
  | .obj ((key, v) :: ms) => by
    rw [Json.chars, List.foldl_cons, hs.step_open (.inr rfl), hs.opened.foldl_member,
      List.foldl_append, Outside.foldl_chars hs.opened v,
      Outside.foldl_moreMembers (hs.opened.reach _) ms, reach_reach, closed_opened]
    rfl
theorem Outside.foldl_moreItems {s : Scan} (hs : s.Outside) :
    ∀ xs : List Json, (Json.moreItems xs).foldl Scan.step s = (s.reach (Json.itemsDepth xs)).closed
  | [] => by
    rw [Json.moreItems, List.foldl_cons, hs.step_close (.inl rfl), Json.itemsDepth, hs.reach_zero]
    rfl
  | x :: xs => by
    rw [Json.moreItems, List.foldl_cons, hs.step_comma, List.foldl_append,
      Outside.foldl_chars hs x, Outside.foldl_moreItems (hs.reach _) xs, reach_reach]
    rfl
theorem Outside.foldl_moreMembers {s : Scan} (hs : s.Outside) :
    ∀ ms : List (String × Json), (Json.moreMembers ms).foldl Scan.step s =
      (s.reach (Json.membersDepth ms)).closed
  | [] => by
    rw [Json.moreMembers, List.foldl_cons, hs.step_close (.inr rfl), Json.membersDepth,
      hs.reach_zero]
    rfl
  | (key, v) :: ms => by
    rw [Json.moreMembers, List.foldl_cons, hs.step_comma, hs.foldl_member, List.foldl_append,
      Outside.foldl_chars hs v, Outside.foldl_moreMembers (hs.reach _) ms, reach_reach]
    rfl
end

end Gate.Scan

/-- The text of a value is nested as deeply as the value. -/
theorem Gate.nesting_text (v : Json) : nesting v.text = v.depth := by
  have hs : Scan.Outside {} := ⟨rfl, rfl, Nat.le_refl 0⟩
  rw [nesting, Json.text, String.toList_ofList, hs.foldl_chars v]
  simp [Scan.reach]

end ArchivalQuery
