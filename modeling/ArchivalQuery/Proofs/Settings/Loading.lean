import ArchivalQuery.Proofs.Settings.File
import ArchivalQuery.Proofs.Settings.Validity
import ArchivalQuery.Proofs.Settings.Variables
import Mathlib.Order.Bounds.Basic

/-! # Loading settings

Settings come from three layers: the environment goes before the file, for limits only, and the
file goes before the defaults.  They are validated once, after the layers are merged, so that
nothing that is overridden is ever at fault.
-/
namespace ArchivalQuery.Settings

/-- Whether settings are the merged layers: the environment goes before the base, and it has limits
only. -/
structure Merges (env : Environment) (base s : Settings) : Prop where
  limits (k : Limit) : Overrides env base.limits k (s.limits.get k)
  ancestry : s.ancestry = base.ancestry

/-- The fault to report.  Invalid variables come before limits of zero, these before blank names and
blank names before shared ones; of one kind it is the first one, and for shared names the least pair
of roles in lexicographic order. -/
inductive FirstFault (env : Environment) (base : Settings) : SettingsError → Prop
  | invalidVariable {k : Limit} {value : String} (least : IsLeast {k | Invalid env k} k)
    (set : env k.variableName = some value) : FirstFault env base (.invalidVariable k value)
  | zeroLimit {s : Settings} {k : Limit} (merged : Merges env base s)
    (least : IsLeast {k | s.limits.get k = 0} k) : FirstFault env base (.zeroLimit k)
  | emptyField {s : Settings} {r : Role} (merged : Merges env base s)
    (nonzero : ∀ k, s.limits.get k ≠ 0)
    (least : IsLeast {r | Text.allBlank (s.ancestry.name r) = true} r) :
    FirstFault env base (.emptyField r)
  | duplicateField {s : Settings} {r t : Role} (merged : Merges env base s)
    (nonzero : ∀ k, s.limits.get k ≠ 0) (filled : ∀ r, Text.allBlank (s.ancestry.name r) = false)
    (least : IsLeast {p | s.ancestry.Shares p} (toLex (r, t))) :
    FirstFault env base (.duplicateField r t (s.ancestry.name r))

variable {env : Environment} {base s : Settings}

theorem Merges.unique {s' : Settings} (h : Merges env base s) (h' : Merges env base s') :
    s = s' := by
  have hlimits : s.limits = s'.limits :=
    Limits.ext_get fun k => (h.limits k).unique (h'.limits k)
  cases s
  cases s'
  obtain ⟨rfl, rfl⟩ := And.intro hlimits (h.ancestry.trans h'.ancestry.symm)
  rfl

/-- Once the variables are applied, the merged settings are validated. -/
theorem resolve_of_merges (h : Merges env base s) :
    resolve env base = s.check >>= fun _ => .ok s := by
  have hs : { base with limits := s.limits } = s := by rw [← h.ancestry]
  rw [resolve, apply_all_eq_ok_iff.mpr h.limits]
  simp only [bind, Except.bind, hs]
  rfl

theorem exists_merges_or_invalid (env : Environment) (base : Settings) :
    (∃ s, Merges env base s) ∨ ∃ k value, IsLeast {k | Invalid env k} k ∧
      env k.variableName = some value ∧ resolve env base = .error (.invalidVariable k value) := by
  cases happly : Limit.all.foldlM (applyVariable env) base.limits with
  | ok limits => exact .inl ⟨{ base with limits }, apply_all_eq_ok_iff.mp happly, rfl⟩
  | error e =>
    obtain ⟨k, value, hleast, hset, rfl⟩ := apply_all_eq_error_iff.mp happly
    refine .inr ⟨k, value, hleast, hset, ?_⟩
    rw [resolve, happly]
    rfl

theorem Merges.not_invalid (h : Merges env base s) (k : Limit) : ¬Invalid env k :=
  (h.limits k).not_invalid

/-- The layers can be merged, in one way, if no variable is invalid. -/
theorem existsUnique_merges_iff : (∃! s, Merges env base s) ↔ ∀ k, ¬Invalid env k := by
  constructor
  · exact fun ⟨s, h, _⟩ => h.not_invalid
  · intro hvalid
    obtain ⟨s, h⟩ | ⟨k, -, hleast, -⟩ := exists_merges_or_invalid env base
    · exact ⟨s, h, fun s' h' => h'.unique h⟩
    · exact absurd hleast.1 (hvalid k)

theorem resolve_eq_ok_iff : resolve env base = .ok s ↔ Merges env base s ∧ s.Valid := by
  obtain ⟨s', h⟩ | ⟨k, value, hleast, -, hresolve⟩ := exists_merges_or_invalid env base
  · have hcheck : resolve env base = .ok s ↔ s'.check = .ok () ∧ s' = s := by
      rw [resolve_of_merges h]
      cases s'.check <;> simp [bind, Except.bind]
    rw [hcheck, check_eq_ok_iff]
    constructor
    · rintro ⟨hvalid, rfl⟩
      exact ⟨h, hvalid⟩
    · rintro ⟨hmerged, hvalid⟩
      obtain rfl := h.unique hmerged
      exact ⟨hvalid, rfl⟩
  · rw [hresolve]
    simp only [reduceCtorEq, false_iff]
    exact fun h => h.1.not_invalid k hleast.1

theorem resolve_eq_error_iff {e : SettingsError} :
    resolve env base = .error e ↔ FirstFault env base e := by
  obtain ⟨s, h⟩ | ⟨k, value, hleast, hset, hresolve⟩ := exists_merges_or_invalid env base
  · have hcheck : resolve env base = .error e ↔ s.check = .error e := by
      rw [resolve_of_merges h]
      cases s.check <;> simp [bind, Except.bind]
    rw [hcheck, check_eq_error_iff, Ancestry.check_eq_error_iff]
    constructor
    · rintro (⟨k, hk, rfl⟩ | ⟨hnonzero, ⟨r, hr, rfl⟩ | ⟨hfilled, r, t, hrt, rfl⟩⟩)
      · exact .zeroLimit h hk
      · exact .emptyField h hnonzero hr
      · exact .duplicateField h hnonzero hfilled hrt
    · intro hfault
      cases hfault with
      | invalidVariable least => exact absurd least.1 (h.not_invalid _)
      | zeroLimit merged least =>
        obtain rfl := h.unique merged
        exact .inl ⟨_, least, rfl⟩
      | emptyField merged nonzero least =>
        obtain rfl := h.unique merged
        exact .inr ⟨nonzero, .inl ⟨_, least, rfl⟩⟩
      | duplicateField merged nonzero filled least =>
        obtain rfl := h.unique merged
        exact .inr ⟨nonzero, .inr ⟨filled, _, _, least, rfl⟩⟩
  · rw [hresolve, Except.error.injEq]
    constructor
    · rintro rfl
      exact .invalidVariable hleast hset
    · intro hfault
      cases hfault with
      | invalidVariable least set =>
        obtain rfl := hleast.unique least
        rw [Option.some.inj (hset.symm.trans set)]
      | zeroLimit merged | emptyField merged | duplicateField merged =>
        exact absurd hleast.1 (merged.not_invalid k)

theorem Decoded.load_eq {file : Option File} (h : Decoded file base) :
    load file env = (resolve env base).mapError .invalid := by
  cases h with
  | defaults => rfl
  | file decodes =>
    rw [load]
    simp only [decodes]
    rfl

/-- Loading goes by precedence: a limit is what its variable says if that is set, otherwise what the
file states, and the default where the file states nothing; names have no variables.  It succeeds
exactly if every variable that is set is a number and the merged settings are valid, and otherwise
reports the first fault.  A zero in the file is no fault where a variable overrides it. -/
theorem load_by_precedence {file : Option File} (h : Decoded file base) (env : Environment) :
    base.Follows file ∧
    ((∃! s, Merges env base s) ↔ ∀ k, ¬Invalid env k) ∧
    (∀ s, load file env = .ok s ↔ (∀ k, ¬Invalid env k) ∧ Merges env base s ∧ s.Valid) ∧
    (∀ e, load file env = .error e ↔ ∃ fault, FirstFault env base fault ∧ e = .invalid fault) ∧
    ∀ k value n, env k.variableName = some value → Reads value n → n ≠ 0 →
      load file env ≠ .error (.invalid (.zeroLimit k)) := by
  have hfault {e : LoadError} :
      load file env = .error e ↔ ∃ fault, FirstFault env base fault ∧ e = .invalid fault := by
    rw [h.load_eq]
    simp only [← resolve_eq_error_iff]
    cases resolve env base <;> simp [Except.mapError, eq_comm]
  refine ⟨h.follows, existsUnique_merges_iff, fun s => ?_, fun e => hfault, ?_⟩
  · have hload : load file env = .ok s ↔ resolve env base = .ok s := by
      rw [h.load_eq]
      cases resolve env base <;> simp [Except.mapError]
    rw [hload, resolve_eq_ok_iff]
    exact (and_iff_right_of_imp fun hs => hs.1.not_invalid).symm
  · intro k value n hset hreads hn hload
    obtain ⟨fault, hfirst, heq⟩ := hfault.mp hload
    obtain rfl := LoadError.invalid.inj heq
    cases hfirst with
    | zeroLimit merged least =>
      have hzero : Overrides env base.limits k 0 := least.1 ▸ merged.limits k
      exact hn ((Overrides.overridden hset hreads).unique hzero)

/-- A request size of zero in the file is a fault, but not under a variable; what no variable sets
comes from the file and from the defaults. -/
theorem load_by_precedence_zero_overridden :
    let text := "[limits]\nmax_request_size = 0\nmax_nesting_depth = 12\n[ancestry]\nid = \"ref\"\n"
    let file : Option File := some ⟨"config.toml", .ok text⟩
    let env : Environment := fun name =>
      if name = "ARCHIVUM_MAX_REQUEST_SIZE" then some " +4096 " else none
    Decoded file ⟨⟨0, 12, 10000⟩, { id := "ref" }⟩ ∧ Reads " +4096 " 4096 ∧
      load file env = .ok ⟨⟨4096, 12, 10000⟩, { id := "ref" }⟩ ∧
      load file env ≠ .error (.invalid (.zeroLimit .requestSize)) ∧
      load file (fun _ => none) = .error (.invalid (.zeroLimit .requestSize)) := by
  intro text file env
  have hdecoded : Decoded file ⟨⟨0, 12, 10000⟩, { id := "ref" }⟩ := .file (by decide +kernel)
  have hreads : Reads " +4096 " 4096 := variableValue?_eq_some_iff.mp (by decide +kernel)
  obtain ⟨-, -, hload, -, hzero⟩ := load_by_precedence hdecoded env
  obtain ⟨-, -, -, hfault, -⟩ := load_by_precedence hdecoded fun _ => none
  have hmerged : Merges env ⟨⟨0, 12, 10000⟩, { id := "ref" }⟩
      ⟨⟨4096, 12, 10000⟩, { id := "ref" }⟩ := by
    refine ⟨fun k => ?_, rfl⟩
    cases k with
    | requestSize => exact .overridden rfl hreads
    | nestingDepth => exact .kept rfl
    | results => exact .kept rfl
  have hvalid : Valid ⟨⟨4096, 12, 10000⟩, { id := "ref" }⟩ :=
    check_eq_ok_iff.mp (by decide +kernel)
  have hleast : IsLeast {k | (⟨0, 12, 10000⟩ : Limits).get k = 0} .requestSize :=
    ⟨rfl, fun k _ => Nat.zero_le k.place⟩
  exact ⟨hdecoded, hreads, (hload _).mpr ⟨hmerged.not_invalid, hmerged, hvalid⟩,
    hzero _ _ _ rfl hreads (by decide),
    (hfault _).mpr ⟨_, .zeroLimit ⟨fun _ => .kept rfl, rfl⟩ hleast, rfl⟩⟩

end ArchivalQuery.Settings
