import ArchivalQuery.Plan.Compile
import ArchivalQuery.Proofs.Request.Entry
import ArchivalQuery.Proofs.Request.Sections

/-! # Requests under tighter limits

The limits are read in two places only: by the gate, which refuses for nothing but size, and where a
result limit is chosen.  Tighter limits therefore refuse more, always as too large, and of what they
accept they change the result limit alone.
-/
namespace ArchivalQuery

instance : LE Limits := ⟨fun l l' => ∀ k, l.get k ≤ l'.get k⟩

def FilterSection.cap (n : UInt64) (f : FilterSection) : FilterSection :=
  { f with limit := min f.limit n }

def Request.cap (n : UInt64) (r : Request) : Request := { r with filter := r.filter.cap n }

def Plan.cap (n : UInt64) (p : Plan) : Plan := { p with limit := min p.limit n }

namespace Checked
variable {α β : Type}

/-- How an outcome under tight limits has to follow the one under wide limits, where the tight
limits cap what is accepted and let some requests pass. -/
structure Tightens (passes : Prop) (cap : α → α) (wide tight : Checked α) : Prop where
  refused (e : QueryError) : wide = .error e →
    tight = .error e ∨ ∃ excess, tight = .error (.tooLarge excess)
  accepted (a : α) : wide = .ok a →
    tight = .ok (cap a) ∨ ∃ excess, tight = .error (.tooLarge excess)
  relaxed (b : α) : tight = .ok b → ∃ a, wide = .ok a ∧ b = cap a
  passed : passes → tight = cap <$> wide

/-- The tight limits follow the wide ones or refuse for size, and nothing else. -/
theorem tightens_iff {passes : Prop} {cap : α → α} {x y : Checked α} :
    Tightens passes cap x y ↔
      y = cap <$> x ∨ ¬passes ∧ ∃ excess, y = .error (.tooLarge excess) := by
  constructor
  · intro h
    by_cases hp : passes
    · exact .inl (h.passed hp)
    · rw [and_iff_right hp]
      cases x with
      | error e => exact h.refused e rfl
      | ok a => exact h.accepted a rfl
  · rintro (rfl | ⟨hp, excess, rfl⟩)
    · refine ⟨?_, ?_, ?_, fun _ => rfl⟩
      · rintro e rfl
        exact .inl rfl
      · rintro a rfl
        exact .inl rfl
      · intro b hb
        obtain ⟨a, ha, rfl⟩ := map_eq_ok.mp hb
        exact ⟨a, ha, rfl⟩
    · exact ⟨fun _ _ => .inr ⟨excess, rfl⟩, fun _ _ => .inr ⟨excess, rfl⟩, nofun,
        fun h => absurd h hp⟩

/-- What is done with a request has to cap as the request does. -/
theorem Tightens.bind {passes : Prop} {cap : α → α} {cap' : β → β} {x y : Checked α}
    {f g : α → Checked β} (h : Tightens passes cap x y) (hg : ∀ a, g (cap a) = cap' <$> f a) :
    Tightens passes cap' (x >>= f) (y >>= g) := by
  rw [tightens_iff] at h ⊢
  obtain rfl | ⟨hp, excess, rfl⟩ := h
  · left
    rw [bind_map_left, map_bind]
    exact congrArg (x >>= ·) (funext hg)
  · exact .inr ⟨hp, excess, rfl⟩

end Checked

section
variable {l l' : Limits} (h : l ≤ l')
include h

/-- What passes tight limits passes wide ones. -/
theorem Gate.check_of_le {text : String} (hl : check l text = .ok ()) : check l' text = .ok () := by
  rw [check_eq_ok_iff] at hl ⊢
  have hsize := UInt64.le_iff_toNat_le.mp (h .requestSize)
  have hdepth := UInt64.le_iff_toNat_le.mp (h .nestingDepth)
  exact ⟨Nat.le_trans hl.1 hsize, Nat.le_trans hl.2 hdepth⟩

/-- The gate finds a text too large, and nothing else. -/
theorem Gate.tightens_check (text : String) :
    Checked.Tightens (check l text = .ok ()) id (check l' text) (check l text) := by
  rw [Checked.tightens_iff, id_map]
  cases hl : check l text with
  | ok => exact .inl (check_of_le h hl).symm
  | error e =>
    refine .inr ⟨nofun, ?_⟩
    have hcategory := category_of_check hl
    cases e with
    | tooLarge excess => exact ⟨excess, rfl⟩
    | _ => cases hcategory

namespace Request

theorem min_min_defaultLimit (n : UInt64) :
    min (min n l'.defaultLimit) l.defaultLimit = min n l.defaultLimit := by
  have hresults := UInt64.le_iff_toNat_le.mp (h .results)
  dsimp only [Limits.get] at hresults
  rw [← UInt64.toNat_inj, toNat_min, toNat_min, toNat_min]
  omega

theorem readLimit_cap (v : Json) :
    readLimit l v = (min · l.defaultLimit) <$> readLimit l' v := by
  unfold readLimit
  cases readNatural .limit .positive v with
  | error e => rfl
  | ok n =>
    by_cases hn : n = 0
    · subst hn
      rfl
    · change (if n = 0 then _ else pure _) = _ <$> (if n = 0 then _ else pure _)
      rw [if_neg hn, if_neg hn, map_pure, min_min_defaultLimit h]

theorem readFilterOption_cap (f : FilterSection) (p : String × Json) :
    readFilterOption l (f.cap l.defaultLimit) p =
      FilterSection.cap l.defaultLimit <$> readFilterOption l' f p := by
  unfold readFilterOption
  cases FilterKey.ofToken? p.1 with
  | none => rfl
  | some key =>
    cases key with
    | limit =>
      rw [readLimit_cap h]
      cases readLimit l' p.2 <;> rfl
    | offset => cases readNatural .offset .natural p.2 <;> rfl
    | hint => cases readHints p.2 <;> rfl
    | orderBy => cases readOrder p.2 <;> rfl

theorem defaultFilter_cap : defaultFilter l = (defaultFilter l').cap l.defaultLimit := by
  have hresults : min l'.defaultLimit l.defaultLimit = l.defaultLimit := by
    have hle := UInt64.le_iff_toNat_le.mp (h .results)
    rw [← UInt64.toNat_inj, toNat_min]
    exact Nat.min_eq_right hle
  rw [FilterSection.cap, defaultFilter, defaultFilter, hresults]

theorem readFilter_cap (v : Json) :
    readFilter l v = FilterSection.cap l.defaultLimit <$> readFilter l' v := by
  unfold readFilter
  rw [map_bind]
  refine congrArg (sectionMembers .filter v >>= ·) (funext fun ms => ?_)
  rw [defaultFilter_cap h]
  exact Checked.foldlM_hom _ (readFilterOption_cap h) ms _

/-- A request is read alike under all limits, up to its result limit. -/
theorem read_cap (kind : RequestKind) (v : Json) :
    read kind l v = cap l.defaultLimit <$> read kind l' v := by
  have hsection (ms : List (String × Json)) :
      readSection ms .filter (defaultFilter l) (readFilter l) = FilterSection.cap l.defaultLimit <$>
        readSection ms .filter (defaultFilter l') (readFilter l') := by
    unfold readSection
    cases ms.lookup RequestKey.filter.token with
    | none => exact congrArg Except.ok (defaultFilter_cap h)
    | some w => exact readFilter_cap h w
  cases v with
  | obj ms => simp only [read, hsection, map_bind, bind_map_left, map_pure]; rfl
  | _ => rfl

/-- Blank texts never come to the gate. -/
theorem tightens_decode (text : String) :
    Checked.Tightens (Text.allBlank text = true ∨ Gate.check l text = .ok ()) id
      (decode l' text) (decode l text) := by
  unfold decode
  dsimp only
  by_cases hblank : Text.allBlank text = true
  · rw [if_pos hblank, if_pos hblank]
    exact Checked.tightens_iff.mpr (.inl rfl)
  · rw [if_neg hblank, if_neg hblank, or_iff_right hblank]
    exact (Gate.tightens_check h text).bind fun _ => (id_map _).symm

theorem tightens_ofText (kind : RequestKind) (text : String) :
    Checked.Tightens (Text.allBlank text = true ∨ Gate.check l text = .ok ()) (cap l.defaultLimit)
      (ofText kind l' text) (ofText kind l text) :=
  (tightens_decode h text).bind (read_cap h kind)

theorem tightens_ofValue (kind : RequestKind) (v : Json) :
    Checked.Tightens (Gate.checkValue l v = .ok ()) (cap l.defaultLimit) (ofValue kind l' v)
      (ofValue kind l v) :=
  (Gate.tightens_check h v.text).bind fun _ => read_cap h kind v

end Request
end

namespace Request

/-- A capped request has the capped plan. -/
theorem compile_pin_cap (n : UInt64) (a : Ancestry) (c : Collection) (id : Option String)
    (r : Request) : ((r.cap n).pin id).compile a c = Plan.cap n <$> (r.pin id).compile a c := by
  have hpin : (r.cap n).pin id = (r.pin id).cap n := by
    cases id with
    | none => rfl
    | some id =>
      dsimp only [pin]
      split <;> rfl
  rw [hpin]
  unfold compile
  rw [map_bind]
  rfl

/-- Tighter limits refuse more, always as too large, and of the requests that they accept they
change the result limit alone.  This holds of texts and of values, and of the plans made from them.
Whatever passes the tight gate, and every blank text, fares alike under both limits. -/
theorem limits_act_monotonically {l l' : Limits} (h : l ≤ l') (kind : RequestKind) :
    (∀ text, Checked.Tightens (Text.allBlank text = true ∨ Gate.check l text = .ok ())
      (cap l.defaultLimit) (ofText kind l' text) (ofText kind l text)) ∧
    (∀ v, Checked.Tightens (Gate.checkValue l v = .ok ()) (cap l.defaultLimit)
      (ofValue kind l' v) (ofValue kind l v)) ∧
    ∀ a c id,
      (∀ text, Checked.Tightens (Text.allBlank text = true ∨ Gate.check l text = .ok ())
        (Plan.cap l.defaultLimit) (ofText kind l' text >>= fun r => (r.pin id).compile a c)
        (ofText kind l text >>= fun r => (r.pin id).compile a c)) ∧
      ∀ v, Checked.Tightens (Gate.checkValue l v = .ok ()) (Plan.cap l.defaultLimit)
        (ofValue kind l' v >>= fun r => (r.pin id).compile a c)
        (ofValue kind l v >>= fun r => (r.pin id).compile a c) :=
  ⟨tightens_ofText h kind, tightens_ofValue h kind, fun a c id =>
    have hcompile := compile_pin_cap l.defaultLimit a c id
    ⟨fun text => (tightens_ofText h kind text).bind hcompile,
      fun v => (tightens_ofValue h kind v).bind hcompile⟩⟩

/-- A limit of 20 under limits that grant 10 results, in a text that passes both gates. -/
theorem limits_act_monotonically_ten_results :
    let l : Limits := ⟨30, 2, 10⟩
    let text := "\x7b\"$filter\":\x7b\"$limit\":20\x7d\x7d"
    (l ≤ {}) ∧ ∃ r, ofText .select {} text = .ok r ∧ r.filter.limit = 20 ∧
      ofText .select l text = .ok (r.cap 10) ∧ (r.cap 10).filter.limit = 10 := by
  intro l text
  have hle : l ≤ {} := by
    intro k
    cases k <;> decide
  have hgate : Gate.check l text = .ok () :=
    Gate.check_eq_ok_iff.mpr ⟨by decide +kernel, by decide +kernel⟩
  have hwide : ofText .select {} text = .ok
      { kind := .select, roots := [], steps := [], filter := { limit := 20 }, projection := {},
        data := none } := by
    have hread : Json.ofText? text = some (.obj [("$filter", .obj [("$limit", .ofNat 20)])]) := by
      decide +kernel
    rw [ofText, decode_eq_ok_iff.mpr ⟨by decide +kernel, Gate.check_of_le hle hgate, hread⟩]
    rfl
  have htight := ((limits_act_monotonically hle .select).1 text).passed (.inr hgate)
  rw [hwide] at htight
  exact ⟨hle, _, hwide, rfl, htight, rfl⟩

end Request
end ArchivalQuery
