import ArchivalQuery.Proofs.Decimal.Unsigned
import ArchivalQuery.Proofs.Settings.Order
import ArchivalQuery.Settings.Basic
import Mathlib.Data.List.TakeWhile

/-! # Limits from the environment

A variable gives a limit if its value is a decimal of 64 bits between blanks.  Limits take the
values of the variables that are set and keep their own otherwise; the first variable that is set to
something else is the one that is reported, whatever the limits are.
-/
namespace ArchivalQuery

namespace Text

theorem exists_toList_trim (s : String) :
    ∃ before after, s.toList = before ++ (trim s).toList ++ after ∧
      (∀ c ∈ before, isBlank c = true) ∧ ∀ c ∈ after, isBlank c = true := by
  let rest := s.toList.dropWhile isBlank
  have hrest : (trim s).toList ++ (rest.reverse.takeWhile isBlank).reverse = rest := by
    rw [trim, String.toList_ofList, ← List.reverse_append, List.takeWhile_append_dropWhile,
      List.reverse_reverse]
  refine ⟨s.toList.takeWhile isBlank, (rest.reverse.takeWhile isBlank).reverse, ?_, ?_, ?_⟩
  · rw [List.append_assoc, hrest, List.takeWhile_append_dropWhile]
  · exact fun c => List.mem_takeWhile_imp
  · exact fun c hc => List.mem_takeWhile_imp (List.mem_reverse.mp hc)

/-- Blanks go, and nothing behind a character that is no blank. -/
theorem dropWhile_isBlank_append {blanks core rest : List Char}
    (hblanks : ∀ c ∈ blanks, isBlank c = true) (hcore : ∀ c ∈ core, isBlank c = false)
    (hne : core ≠ []) : (blanks ++ (core ++ rest)).dropWhile isBlank = core ++ rest := by
  rw [List.dropWhile_append_of_pos hblanks]
  cases core with
  | nil => exact absurd rfl hne
  | cons c core => exact List.dropWhile_cons_of_neg (by simp [hcore c List.mem_cons_self])

theorem toList_trim_of_append {s : String} {before core after : List Char}
    (hs : s.toList = before ++ core ++ after) (hbefore : ∀ c ∈ before, isBlank c = true)
    (hafter : ∀ c ∈ after, isBlank c = true) (hcore : ∀ c ∈ core, isBlank c = false)
    (hne : core ≠ []) : (trim s).toList = core := by
  have hfront : (before ++ (core ++ after)).dropWhile isBlank = core ++ after :=
    dropWhile_isBlank_append hbefore hcore hne
  have hback : (after.reverse ++ (core.reverse ++ [])).dropWhile isBlank = core.reverse ++ [] :=
    dropWhile_isBlank_append (by simpa using hafter) (by simpa using hcore) (by simpa using hne)
  rw [trim, String.toList_ofList, hs, List.append_assoc, hfront, List.reverse_append,
    ← List.append_nil core.reverse, hback, List.append_nil, List.reverse_reverse]

theorem not_isBlank_of_isDigit {c : Char} (h : c.isDigit = true) : isBlank c = false := by
  rw [Char.isDigit_iff_toNat] at h
  obtain ⟨hlow, hhigh⟩ : 48 ≤ c.toNat ∧ c.toNat ≤ 57 := h
  simp only [isBlank, Bool.or_eq_false_iff, Bool.and_eq_false_iff, decide_eq_false_iff_not,
    beq_eq_false_iff_ne]
  omega

end Text

def Limit.variableName : Limit → String
  | requestSize => "ARCHIVUM_MAX_REQUEST_SIZE"
  | nestingDepth => "ARCHIVUM_MAX_NESTING_DEPTH"
  | results => "ARCHIVUM_DEFAULT_LIMIT"

theorem Limit.envName_eq_variableName (k : Limit) : k.envName = k.variableName := by
  cases k <;> rfl

namespace Settings

/-- Whether a text is a 64-bit number: decimal digits, with or without a plus sign, between
blanks. -/
def Reads (value : String) (n : UInt64) : Prop :=
  ∃ before sign digits after, value.toList = before ++ (sign ++ digits) ++ after ∧
    (∀ c ∈ before, Text.isBlank c = true) ∧ (∀ c ∈ after, Text.isBlank c = true) ∧
    Decimal.Sign sign ∧ Decimal.Spells digits n.toNat

theorem variableValue?_eq_some_iff {value : String} {n : UInt64} :
    variableValue? value = some n ↔ Reads value n := by
  have hsize : 0 < UInt64.size := by decide
  rw [variableValue?, Option.map_eq_some_iff]
  simp only [Decimal.unsigned?_eq_some_iff hsize]
  constructor
  · rintro ⟨m, ⟨sign, digits, hvalue, hsign, hdigits, hm⟩, rfl⟩
    obtain ⟨before, after, hs, hbefore, hafter⟩ := Text.exists_toList_trim value
    rw [hvalue] at hs
    rw [← UInt64.toNat_ofNat_of_lt' hm] at hdigits
    exact ⟨before, sign, digits, after, hs, hbefore, hafter, hsign, hdigits⟩
  · rintro ⟨before, sign, digits, after, hs, hbefore, hafter, hsign, hdigits⟩
    have hne : sign ++ digits ≠ [] := List.append_ne_nil_of_right_ne_nil _ hdigits.nonempty
    have hcore : ∀ c ∈ sign ++ digits, Text.isBlank c = false := by
      intro c hc
      obtain hc | hc := List.mem_append.mp hc
      · obtain rfl | rfl := hsign
        · cases hc
        · rw [List.mem_singleton.mp hc]
          decide
      · exact Text.not_isBlank_of_isDigit (hdigits.digits c hc)
    have hvalue := Text.toList_trim_of_append hs hbefore hafter hcore hne
    exact ⟨n.toNat, ⟨sign, digits, hvalue, hsign, hdigits, n.toNat_lt⟩, UInt64.ofNat_toNat⟩

def Invalid (env : Environment) (k : Limit) : Prop :=
  ∃ value, env k.variableName = some value ∧ ∀ n, ¬Reads value n

/-- What a limit comes to: the value of its variable, or what it is if the variable is not set. -/
inductive Overrides (env : Environment) (l : Limits) (k : Limit) : UInt64 → Prop
  | overridden {value : String} {n : UInt64} (set : env k.variableName = some value)
    (reads : Reads value n) : Overrides env l k n
  | kept (unset : env k.variableName = none) : Overrides env l k (l.get k)

theorem invalid_iff_any {env : Environment} {k : Limit} :
    Invalid env k ↔ ((env k.variableName).any fun value => (variableValue? value).isNone) = true := by
  simp only [Invalid, Option.any_eq_true, Option.isNone_iff_eq_none,
    Option.eq_none_iff_forall_ne_some, ne_eq, variableValue?_eq_some_iff]

instance (env : Environment) : DecidablePred (Invalid env) :=
  fun _ => decidable_of_iff _ invalid_iff_any.symm

end Settings

section
variable {env : Environment} {l l' : Limits}

theorem Limits.ext_get (h : ∀ k, l.get k = l'.get k) : l = l' := by
  cases l
  cases l'
  obtain ⟨rfl, rfl, rfl⟩ := And.intro (h .requestSize) (And.intro (h .nestingDepth) (h .results))
  rfl

namespace Settings
variable {k : Limit}

theorem applyVariable_of_overrides {n : UInt64} (h : Overrides env l k n) :
    applyVariable env l k = .ok (l.set k n) := by
  cases h with
  | overridden set reads =>
    have hvalue := variableValue?_eq_some_iff.mpr reads
    simp only [applyVariable, Limit.envName_eq_variableName, set, hvalue]
  | kept unset =>
    have hset : l.set k (l.get k) = l := by cases k <;> rfl
    simp only [applyVariable, Limit.envName_eq_variableName, unset, hset]

theorem applyVariable_of_invalid {value : String} (set : env k.variableName = some value)
    (h : ∀ n, ¬Reads value n) : applyVariable env l k = .error (.invalidVariable k value) := by
  have hvalue : variableValue? value = none :=
    Option.eq_none_iff_forall_ne_some.mpr fun n hn => h n (variableValue?_eq_some_iff.mp hn)
  simp only [applyVariable, Limit.envName_eq_variableName, set, hvalue]

/-- Every limit comes to something unless its variable is invalid. -/
theorem exists_overrides_or_invalid (env : Environment) (l : Limits) (k : Limit) :
    (∃ n, Overrides env l k n) ∨ Invalid env k := by
  cases henv : env k.variableName with
  | none => exact .inl ⟨_, .kept henv⟩
  | some value =>
    by_cases hvalue : ∃ n, Reads value n
    · obtain ⟨n, hn⟩ := hvalue
      exact .inl ⟨n, .overridden henv hn⟩
    · exact .inr ⟨value, henv, not_exists.mp hvalue⟩

theorem Overrides.not_invalid {n : UInt64} (h : Overrides env l k n) : ¬Invalid env k := by
  rintro ⟨value, hset, hvalue⟩
  have happly := (applyVariable_of_overrides h).symm.trans (applyVariable_of_invalid hset hvalue)
  cases happly

theorem Overrides.unique {m n : UInt64} (hm : Overrides env l k m) (hn : Overrides env l k n) :
    m = n := by
  have happly := (applyVariable_of_overrides hm).symm.trans (applyVariable_of_overrides hn)
  have hget := congrArg (Limits.get · k) (Except.ok.inj happly)
  simpa using hget

/-- The value of another limit does not matter. -/
theorem overrides_set_iff {j : Limit} (hne : j ≠ k) {m n : UInt64} :
    Overrides env (l.set k m) j n ↔ Overrides env l j n := by
  have hget : (l.set k m).get j = l.get j := by rw [Limits.get_set, if_neg hne]
  constructor
  · rintro (⟨set, reads⟩ | unset)
    · exact .overridden set reads
    · exact hget ▸ .kept unset
  · rintro (⟨set, reads⟩ | unset)
    · exact .overridden set reads
    · exact hget ▸ .kept unset

/-- The limits that are applied are overridden, the others stay. -/
theorem foldlM_applyVariable_eq_ok_iff {ks : List Limit} (hks : ks.Nodup) :
    ks.foldlM (applyVariable env) l = .ok l' ↔
      ∀ k, (k ∈ ks → Overrides env l k (l'.get k)) ∧ (k ∉ ks → l'.get k = l.get k) := by
  induction ks generalizing l with
  | nil =>
    simp only [List.foldlM_nil, List.not_mem_nil, false_implies, not_false_eq_true, true_implies,
      true_and]
    constructor
    · rintro ⟨⟩ k
      rfl
    · exact fun h => congrArg Except.ok (Limits.ext_get fun k => (h k).symm)
  | cons j ks ih =>
    obtain ⟨hj, hks⟩ := List.nodup_cons.mp hks
    obtain ⟨n, hn⟩ | ⟨value, hvalue, hreads⟩ := exists_overrides_or_invalid env l j
    · have hset (k : Limit) : (l.set j n).get k = if k = j then n else l.get k := Limits.get_set ..
      rw [List.foldlM_cons, applyVariable_of_overrides hn]
      refine (ih hks).trans (forall_congr' fun k => ?_)
      by_cases hk : k = j
      · subst hk
        simp only [hj, false_implies, not_false_eq_true, true_implies, true_and, hset, if_true,
          List.mem_cons_self, not_true_eq_false, and_true]
        exact ⟨fun h => h ▸ hn, fun h => h.unique hn⟩
      · simp only [overrides_set_iff hk, hset, List.mem_cons, hk, false_or, if_false]
    · have hinvalid : Invalid env j := ⟨value, hvalue, hreads⟩
      rw [List.foldlM_cons, applyVariable_of_invalid hvalue hreads]
      simp only [bind, Except.bind, reduceCtorEq, false_iff]
      exact fun h => ((h j).1 List.mem_cons_self).not_invalid hinvalid

/-- The first of the limits with an invalid variable is reported, with the value as it stands. -/
theorem foldlM_applyVariable_eq_error_iff {ks : List Limit} {e : SettingsError} :
    ks.foldlM (applyVariable env) l = .error e ↔
      ∃ k value, ks.find? (Invalid env ·) = some k ∧ env k.variableName = some value ∧
        e = .invalidVariable k value := by
  induction ks generalizing l with
  | nil => simp [pure, Except.pure]
  | cons j ks ih =>
    obtain ⟨n, hn⟩ | ⟨value, hvalue, hreads⟩ := exists_overrides_or_invalid env l j
    · rw [List.foldlM_cons, applyVariable_of_overrides hn,
        List.find?_cons_of_neg (by simpa using hn.not_invalid)]
      exact ih
    · have hinvalid : Invalid env j := ⟨value, hvalue, hreads⟩
      rw [List.foldlM_cons, applyVariable_of_invalid hvalue hreads,
        List.find?_cons_of_pos (by simpa using hinvalid)]
      simp only [bind, Except.bind, Except.error.injEq, Option.some.injEq]
      constructor
      · rintro rfl
        exact ⟨j, value, rfl, hvalue, rfl⟩
      · rintro ⟨k, value', rfl, hvalue', rfl⟩
        rw [Option.some.inj (hvalue.symm.trans hvalue')]

theorem apply_all_eq_ok_iff :
    Limit.all.foldlM (applyVariable env) l = .ok l' ↔ ∀ k, Overrides env l k (l'.get k) := by
  rw [foldlM_applyVariable_eq_ok_iff (by decide)]
  simp only [Limit.mem_all, true_implies, not_true_eq_false, false_implies, and_true]

theorem apply_all_eq_error_iff {e : SettingsError} :
    Limit.all.foldlM (applyVariable env) l = .error e ↔
      ∃ k value, IsLeast {k | Invalid env k} k ∧ env k.variableName = some value ∧
        e = .invalidVariable k value := by
  simp only [foldlM_applyVariable_eq_error_iff, find?_eq_some_iff_isLeast Limit.pairwise_all,
    Limit.mem_all, true_and, decide_eq_true_eq]

end Settings
end
end ArchivalQuery
