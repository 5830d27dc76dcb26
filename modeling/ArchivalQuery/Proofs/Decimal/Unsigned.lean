import ArchivalQuery.Decimal.Unsigned
import Mathlib.Tactic.Common

/-! # The unsigned decimals that are read

A run of digits stands for a natural whatever zeros it starts with.  Digits are read one after the
other and the number read so far never falls, so that it stays below a bound all along if it does so
in the end.
-/
namespace ArchivalQuery.Decimal

/-- Whether a run of digits stands for a natural. -/
structure Spells (cs : List Char) (n : Nat) : Prop where
  nonempty : cs ≠ []
  digits : ∀ c ∈ cs, c.isDigit = true
  value : Nat.ofDigitChars 10 cs 0 = n

theorem le_ofDigitChars (ds : List Char) (n : Nat) : n ≤ Nat.ofDigitChars 10 ds n := by
  rw [Nat.ofDigitChars_eq_ofDigitChars_zero]
  have hpow : 0 < 10 ^ ds.length := Nat.pow_pos (by decide)
  have hmul := Nat.le_mul_of_pos_left n hpow
  omega

theorem step_eq_some_iff {bound m n : Nat} {c : Char} :
    digitsBelow?.step bound m c = some n ↔
      c.isDigit = true ∧ n = 10 * m + (c.toNat - '0'.toNat) ∧ n < bound := by
  unfold digitsBelow?.step digit?
  by_cases hc : c.isDigit = true
  · simp only [hc, true_and, Nat.mul_comm 10 m]
    split <;> grind
  · simp [hc]

theorem foldlM_step_eq_some_iff {bound m n : Nat} {cs : List Char} (hm : m < bound) :
    cs.foldlM (digitsBelow?.step bound) m = some n ↔
      (∀ c ∈ cs, c.isDigit = true) ∧ Nat.ofDigitChars 10 cs m = n ∧ n < bound := by
  induction cs generalizing m with
  | nil =>
    simp only [List.foldlM_nil, Option.pure_def, Option.some.injEq, List.not_mem_nil,
      Nat.ofDigitChars_nil]
    constructor
    · rintro rfl
      exact ⟨nofun, rfl, hm⟩
    · exact fun h => h.2.1
  | cons c cs ih =>
    simp only [List.foldlM_cons, Option.bind_eq_bind, Option.bind_eq_some_iff, step_eq_some_iff,
      List.forall_mem_cons, Nat.ofDigitChars_cons]
    constructor
    · rintro ⟨k, ⟨hc, rfl, hk⟩, h⟩
      obtain ⟨hcs, hn⟩ := (ih hk).mp h
      exact ⟨⟨hc, hcs⟩, hn⟩
    · rintro ⟨⟨hc, hcs⟩, hn, hbound⟩
      have hk : 10 * m + (c.toNat - '0'.toNat) < bound := by
        have hle := le_ofDigitChars cs (10 * m + (c.toNat - '0'.toNat))
        omega
      exact ⟨_, ⟨hc, rfl, hk⟩, (ih hk).mpr ⟨hcs, hn, hbound⟩⟩

theorem digitsBelow?_eq_some_iff {bound n : Nat} {cs : List Char} (hbound : 0 < bound) :
    digitsBelow? bound cs = some n ↔ Spells cs n ∧ n < bound := by
  unfold digitsBelow?
  by_cases hcs : cs = []
  · subst hcs
    simp only [List.isEmpty_nil, if_true, reduceCtorEq, false_iff]
    exact fun h => h.1.nonempty rfl
  · rw [if_neg (by simpa using hcs), foldlM_step_eq_some_iff hbound]
    exact ⟨fun ⟨hdigits, hvalue, hn⟩ => ⟨⟨hcs, hdigits, hvalue⟩, hn⟩,
      fun ⟨h, hn⟩ => ⟨h.digits, h.value, hn⟩⟩

/-- What may stand in front of the digits. -/
def Sign (cs : List Char) : Prop := cs = [] ∨ cs = ['+']

/-- Exactly the runs of digits are read, with or without a plus sign. -/
theorem unsigned?_eq_some_iff {bound n : Nat} {s : String} (hbound : 0 < bound) :
    unsigned? bound s = some n ↔
      ∃ sign digits, s.toList = sign ++ digits ∧ Sign sign ∧ Spells digits n ∧ n < bound := by
  unfold unsigned?
  split
  · rename_i cs hs
    rw [digitsBelow?_eq_some_iff hbound, hs]
    constructor
    · exact fun h => ⟨['+'], cs, rfl, .inr rfl, h⟩
    · rintro ⟨sign, digits, hcs, rfl | rfl, h⟩
      · rw [List.nil_append] at hcs
        have hplus : '+' ∈ digits := hcs ▸ List.mem_cons_self
        exact absurd (h.1.digits _ hplus) (by decide)
      · obtain rfl : cs = digits := (List.cons.inj hcs).2
        exact h
  · rename_i hplus
    rw [digitsBelow?_eq_some_iff hbound]
    constructor
    · exact fun h => ⟨[], _, rfl, .inl rfl, h⟩
    · rintro ⟨sign, digits, hs, rfl | rfl, h⟩
      · rwa [← List.nil_append digits, ← hs] at h
      · exact absurd hs (hplus digits)

end ArchivalQuery.Decimal
