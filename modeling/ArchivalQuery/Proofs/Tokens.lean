import ArchivalQuery.Catalog
import Mathlib.Logic.Function.Basic

/-! # Tokens and their words

Within each family a token has one word: the look-up of a token inverts the spelling of a word.
-/
namespace ArchivalQuery
section
variable {α : Type} {words : List α} {token : α → String} {t : String} {w : α}

/-- A text that no word of a family spells. -/
theorem ne_token_of_wordOfToken? (h : wordOfToken? words token t = none) :
    ∀ w ∈ words, t ≠ token w := by
  rw [wordOfToken?, List.find?_eq_none] at h
  intro w hw ht
  exact h w hw (beq_iff_eq.mpr ht.symm)

theorem wordOfToken?_eq_some_iff (h : ∀ w, wordOfToken? words token (token w) = some w) :
    wordOfToken? words token t = some w ↔ t = token w := by
  constructor
  · intro hw
    have hbeq := List.find?_some hw
    exact (eq_of_beq hbeq).symm
  · rintro rfl
    exact h w

theorem injective_of_wordOfToken? (h : ∀ w, wordOfToken? words token (token w) = some w) :
    Function.Injective token :=
  Function.IsPartialInv.injective fun _ _ => (wordOfToken?_eq_some_iff h).trans eq_comm

end

theorem Operator.ofToken?_eq_some_iff {t : String} {op : Operator} :
    ofToken? t = some op ↔ t = op.token :=
  wordOfToken?_eq_some_iff ofToken?_token

theorem RequestKey.ofToken?_eq_some_iff {t : String} {k : RequestKey} :
    ofToken? t = some k ↔ t = k.token :=
  wordOfToken?_eq_some_iff ofToken?_token

theorem RequestKey.token_injective : Function.Injective token :=
  injective_of_wordOfToken? ofToken?_token

theorem StepModifier.ofToken?_eq_some_iff {t : String} {m : StepModifier} :
    ofToken? t = some m ↔ t = m.token :=
  wordOfToken?_eq_some_iff ofToken?_token

theorem FilterKey.ofToken?_eq_some_iff {t : String} {k : FilterKey} :
    ofToken? t = some k ↔ t = k.token :=
  wordOfToken?_eq_some_iff ofToken?_token

theorem ProjectionKey.ofToken?_eq_some_iff {t : String} {k : ProjectionKey} :
    ofToken? t = some k ↔ t = k.token :=
  wordOfToken?_eq_some_iff ofToken?_token

theorem Hint.ofToken?_eq_some_iff {t : String} {h : Hint} : ofToken? t = some h ↔ t = h.token :=
  wordOfToken?_eq_some_iff ofToken?_token

theorem ReservedField.ofToken?_eq_some_iff {t : String} {f : ReservedField} :
    ofToken? t = some f ↔ t = f.token :=
  wordOfToken?_eq_some_iff ofToken?_token

theorem ReservedField.token_injective : Function.Injective token :=
  injective_of_wordOfToken? ofToken?_token

end ArchivalQuery
