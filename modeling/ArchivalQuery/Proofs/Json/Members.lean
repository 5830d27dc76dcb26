import ArchivalQuery.Json.Basic
import ArchivalQuery.Proofs.Checked
import Mathlib.Data.List.Basic

/-! # Members of objects

Induction over values, values whose objects repeat no key, and what a key of an object gives: the
reading of its member, or a default if there is none.  A record that is filled member by member
holds in each of its fields what the key of the field gives.
-/
namespace ArchivalQuery.Json

mutual
/-- What holds of leaves, and of arrays and objects whenever it holds of their parts, holds of all
values. -/
@[elab_as_elim] theorem induction {P : Json → Prop}
    (leaf : ∀ v, v.arr? = none → v.obj? = none → P v)
    (arr : ∀ xs, (∀ x ∈ xs, P x) → P (.arr xs))
    (obj : ∀ ms, (∀ m : String × Json, m ∈ ms → P m.2) → P (.obj ms)) : ∀ v, P v
  | .null => leaf _ rfl rfl
  | .bool _ => leaf _ rfl rfl
  | .num _ => leaf _ rfl rfl
  | .str _ => leaf _ rfl rfl
  | .arr xs => arr xs (items_induction leaf arr obj xs)
  | .obj ms => obj ms (members_induction leaf arr obj ms)
theorem items_induction {P : Json → Prop} (leaf : ∀ v, v.arr? = none → v.obj? = none → P v)
    (arr : ∀ xs, (∀ x ∈ xs, P x) → P (.arr xs))
    (obj : ∀ ms, (∀ m : String × Json, m ∈ ms → P m.2) → P (.obj ms)) :
    ∀ xs : List Json, ∀ x ∈ xs, P x
  | [] => by simp
  | x :: xs =>
    List.forall_mem_cons.mpr ⟨induction leaf arr obj x, items_induction leaf arr obj xs⟩
theorem members_induction {P : Json → Prop} (leaf : ∀ v, v.arr? = none → v.obj? = none → P v)
    (arr : ∀ xs, (∀ x ∈ xs, P x) → P (.arr xs))
    (obj : ∀ ms, (∀ m : String × Json, m ∈ ms → P m.2) → P (.obj ms)) :
    ∀ ms : List (String × Json), ∀ m ∈ ms, P m.2
  | [] => by simp
  | (_, v) :: ms =>
    List.forall_mem_cons.mpr ⟨induction leaf arr obj v, members_induction leaf arr obj ms⟩
end

mutual
/-- Whether no object inside a value repeats a key. -/
def Distinct : Json → Prop
  | arr xs => ItemsDistinct xs
  | obj ms => (ms.map Prod.fst).Nodup ∧ MembersDistinct ms
  | _ => True
def ItemsDistinct : List Json → Prop
  | [] => True
  | x :: xs => Distinct x ∧ ItemsDistinct xs
def MembersDistinct : List (String × Json) → Prop
  | [] => True
  | (_, v) :: ms => Distinct v ∧ MembersDistinct ms
end

theorem itemsDistinct_iff {xs : List Json} : ItemsDistinct xs ↔ ∀ x ∈ xs, Distinct x := by
  induction xs with
  | nil => simp [ItemsDistinct]
  | cons x xs ih => simp [ItemsDistinct, ih]

theorem membersDistinct_iff {ms : List (String × Json)} :
    MembersDistinct ms ↔ ∀ m ∈ ms, Distinct m.2 := by
  induction ms with
  | nil => simp [MembersDistinct]
  | cons m ms ih => rw [MembersDistinct, ih, List.forall_mem_cons]

theorem distinct_arr_iff {xs : List Json} : (arr xs).Distinct ↔ ∀ x ∈ xs, x.Distinct := by
  rw [Distinct, itemsDistinct_iff]

theorem distinct_obj_iff {ms : List (String × Json)} :
    (obj ms).Distinct ↔ (ms.map Prod.fst).Nodup ∧ ∀ m ∈ ms, m.2.Distinct := by
  rw [Distinct, membersDistinct_iff]

theorem distinct_single_iff {key : String} {v : Json} :
    (single key v).Distinct ↔ v.Distinct := by
  simp [single, distinct_obj_iff]

theorem distinct_of_isScalar {v : Json} (h : v.isScalar) : v.Distinct := by
  cases v <;> simp_all [isScalar, Distinct]

theorem distinct_ofStrings (ss : List String) : (ofStrings ss).Distinct := by
  simp [ofStrings, distinct_arr_iff, Distinct]

theorem Distinct.nodup {ms : List (String × Json)} (h : (obj ms).Distinct) :
    (ms.map Prod.fst).Nodup :=
  (distinct_obj_iff.mp h).1

theorem Distinct.member {ms : List (String × Json)} (h : (obj ms).Distinct) {m : String × Json}
    (hm : m ∈ ms) : m.2.Distinct :=
  (distinct_obj_iff.mp h).2 m hm

theorem Distinct.item {xs : List Json} (h : (arr xs).Distinct) {x : Json} (hx : x ∈ xs) :
    x.Distinct :=
  distinct_arr_iff.mp h x hx

theorem lookup_eq_none_iff_notMem {ms : List (String × Json)} {key : String} :
    ms.lookup key = none ↔ key ∉ ms.map Prod.fst := by
  rw [List.lookup_eq_none_iff, List.mem_map]
  constructor
  · rintro h ⟨m, hm, rfl⟩
    exact bne_iff_ne.mp (h m hm) rfl
  · intro h m hm
    exact bne_iff_ne.mpr fun e => h ⟨m, hm, e.symm⟩

theorem mem_of_lookup {ms : List (String × Json)} {key : String} {v : Json}
    (h : ms.lookup key = some v) : (key, v) ∈ ms := by
  obtain ⟨ls, ns, rfl, -⟩ := List.lookup_eq_some_iff.mp h
  exact List.mem_append_right ls List.mem_cons_self

theorem lookup_cons_of_ne {ms : List (String × Json)} {key k : String} (h : key ≠ k) (v : Json) :
    ((k, v) :: ms).lookup key = ms.lookup key := by
  rw [List.lookup_cons, beq_false_of_ne h]

theorem lookup_cons (key : String) (v : Json) (ms : List (String × Json)) (k : String) :
    List.lookup k ((key, v) :: ms) = if k = key then some v else ms.lookup k := by
  by_cases h : k = key
  · subst h
    rw [if_pos rfl, List.lookup_cons_self]
  · rw [if_neg h, lookup_cons_of_ne h]

theorem lookup_eq_some_iff_mem {ms : List (String × Json)} (hms : (ms.map Prod.fst).Nodup)
    {key : String} {v : Json} : ms.lookup key = some v ↔ (key, v) ∈ ms := by
  induction ms with
  | nil => simp
  | cons m ms ih =>
    rcases m with ⟨k, w⟩
    rw [List.map_cons, List.nodup_cons] at hms
    rw [List.mem_cons]
    by_cases hk : key = k
    · subst hk
      have hmem : (key, v) ∉ ms := fun h => hms.1 (List.mem_map.mpr ⟨(key, v), h, rfl⟩)
      simp [hmem, eq_comm]
    · rw [lookup_cons_of_ne hk, ih hms.2]
      simp [hk]

/-- Members of other keys do not change what a key looks up. -/
theorem lookup_filter (q : String → Bool) {ms : List (String × Json)} {key : String}
    (hq : q key = true) : (ms.filter fun m => q m.1).lookup key = ms.lookup key := by
  induction ms with
  | nil => rfl
  | cons m ms ih =>
    rcases m with ⟨k, v⟩
    rw [List.filter_cons]
    by_cases hk : key = k
    · subst hk
      rw [if_pos hq, List.lookup_cons_self, List.lookup_cons_self]
    · rw [lookup_cons_of_ne hk, ← ih]
      split
      · exact lookup_cons_of_ne hk v
      · rfl

/-- Values that are rewritten under their keys are looked up as before, and then rewritten. -/
theorem lookup_map {f : String → Json → Json} {ms : List (String × Json)} {key : String} :
    (ms.map fun m => (m.1, f m.1 m.2)).lookup key = (ms.lookup key).map (f key) := by
  induction ms with
  | nil => rfl
  | cons m ms ih =>
    rcases m with ⟨k, v⟩
    rw [List.map_cons]
    by_cases hk : key = k
    · subst hk
      rw [List.lookup_cons_self, List.lookup_cons_self, Option.map_some]
    · rw [lookup_cons_of_ne hk, lookup_cons_of_ne hk, ih]

theorem eq_of_mem {ms : List (String × Json)} (hms : (ms.map Prod.fst).Nodup) {key : String}
    {v w : Json} (hv : (key, v) ∈ ms) (hw : (key, w) ∈ ms) : v = w := by
  rw [← lookup_eq_some_iff_mem hms] at hv hw
  rw [hv] at hw
  exact Option.some.inj hw

theorem nodup_keys_of_perm {ms ns : List (String × Json)} (hms : (ms.map Prod.fst).Nodup)
    (h : ms.Perm ns) : (ns.map Prod.fst).Nodup :=
  (h.map Prod.fst).nodup_iff.mp hms

/-- The order of the members of an object that repeats no key does not matter to a look-up. -/
theorem lookup_eq_of_perm {ms ns : List (String × Json)} (hms : (ms.map Prod.fst).Nodup)
    (h : ms.Perm ns) (key : String) : ms.lookup key = ns.lookup key := by
  ext v
  rw [lookup_eq_some_iff_mem hms, lookup_eq_some_iff_mem (nodup_keys_of_perm hms h), h.mem_iff]

theorem ofStrings_inj {ss ts : List String} : ofStrings ss = ofStrings ts ↔ ss = ts := by
  have hinj : Function.Injective str := fun _ _ => Json.str.inj
  rw [ofStrings, ofStrings, Json.arr.injEq, hinj.list_map.eq_iff]

theorem Distinct.of_perm {ms ns : List (String × Json)} (hms : (obj ms).Distinct)
    (h : ms.Perm ns) : (obj ns).Distinct :=
  distinct_obj_iff.mpr ⟨nodup_keys_of_perm hms.nodup h, fun _ hm => hms.member (h.mem_iff.mpr hm)⟩

/-- What the member of a key reads as, or the default where the object has no such member. -/
def Gives {α : Type} (ms : List (String × Json)) (key : String) (Reads : Json → α → Prop)
    (default x : α) : Prop :=
  match ms.lookup key with
  | some v => Reads v x
  | none => x = default

section Gives
variable {α σ : Type} {Reads : Json → α → Prop} {ms : List (String × Json)} {key : String}

theorem Gives.unique (hR : ∀ v x y, Reads v x → Reads v y → x = y) {default x y : α}
    (hx : Gives ms key Reads default x) (hy : Gives ms key Reads default y) : x = y := by
  unfold Gives at hx hy
  cases hl : ms.lookup key with
  | some v =>
    rw [hl] at hx hy
    exact hR v x y hx hy
  | none =>
    rw [hl] at hx hy
    rw [hx, hy]

theorem Gives.of_mem (hms : (ms.map Prod.fst).Nodup) {default x : α}
    (h : Gives ms key Reads default x) {v : Json} (hv : (key, v) ∈ ms) : Reads v x := by
  rw [← lookup_eq_some_iff_mem hms] at hv
  simpa only [Gives, hv] using h

theorem gives_iff_of_perm {ns : List (String × Json)} (hms : (ms.map Prod.fst).Nodup)
    (h : ms.Perm ns) {default x : α} :
    Gives ms key Reads default x ↔ Gives ns key Reads default x := by
  rw [Gives, Gives, lookup_eq_of_perm hms h]

/-- A part that was noted has a member that it was noted from. -/
theorem Gives.exists_mem (hms : (ms.map Prod.fst).Nodup) {x : α}
    (h : Gives ms key (fun v o => ∃ y, Reads v y ∧ o = some y) none (some x)) :
    ∃ v, (key, v) ∈ ms ∧ Reads v x := by
  unfold Gives at h
  split at h
  case h_1 v hl =>
    rcases h with ⟨y, hy, hxy⟩
    obtain rfl := Option.some.inj hxy
    exact ⟨v, (lookup_eq_some_iff_mem hms).mp hl, hy⟩
  case h_2 => cases h

/-- A part that is noted as it stands is what its key looks up. -/
theorem gives_some_iff {x : Option Json} :
    Gives ms key (fun v x => x = some v) none x ↔ x = ms.lookup key := by
  unfold Gives
  cases ms.lookup key with
  | none => rfl
  | some v => rfl

/-- A fold over the members of an object leaves in a field what its key gives, if members of other
keys leave the field alone. -/
theorem gives_of_foldlM {step : σ → String × Json → Checked σ} (field : σ → α)
    (other : ∀ {s p s'}, step s p = .ok s' → p.1 ≠ key → field s' = field s)
    (own : ∀ {s v s'}, step s (key, v) = .ok s' → Reads v (field s'))
    (hms : (ms.map Prod.fst).Nodup) {s s' : σ} (h : ms.foldlM step s = .ok s') :
    Gives ms key Reads (field s) (field s') := by
  induction ms generalizing s with
  | nil =>
    rw [List.foldlM_nil, Checked.pure_eq_ok] at h
    simp [Gives, h]
  | cons m ms ih =>
    rcases m with ⟨k, v⟩
    rw [List.map_cons, List.nodup_cons] at hms
    rw [List.foldlM_cons, Checked.bind_eq_ok] at h
    rcases h with ⟨s₁, h₁, h₂⟩
    have rest := ih hms.2 h₂
    unfold Gives at rest ⊢
    by_cases hk : key = k
    · subst hk
      rw [lookup_eq_none_iff_notMem.mpr hms.1] at rest
      simpa [rest] using own h₁
    · rw [other h₁ (Ne.symm hk)] at rest
      rw [lookup_cons_of_ne hk]
      exact rest

end Gives

/-- A fold over the members of an object accepts the same in any order, if what it accepts has a
specification in which the order does not matter. -/
theorem foldlM_acceptsAs_of_perm {σ : Type} {step : σ → String × Json → Checked σ} {s : σ}
    {Leaves : List (String × Json) → σ → Prop}
    (spec : ∀ {ms}, (ms.map Prod.fst).Nodup → ∀ {t}, ms.foldlM step s = .ok t ↔ Leaves ms t)
    (anyOrder : ∀ {ms ns}, (ms.map Prod.fst).Nodup → ms.Perm ns →
      ∀ {t}, Leaves ms t → Leaves ns t)
    {ms ns : List (String × Json)} (hms : (ms.map Prod.fst).Nodup) (h : ms.Perm ns) :
    Checked.AcceptsAs (ms.foldlM step s) (ns.foldlM step s) := by
  intro t
  have hns := nodup_keys_of_perm hms h
  rw [spec hms, spec hns]
  exact ⟨anyOrder hms h, anyOrder hns h.symm⟩

end ArchivalQuery.Json
