import ArchivalQuery.Json.Draft
import Mathlib.Data.List.Forall2

/-! # Nesting of values

How deeply a value is nested, and the draft that it comes from.  A repeated name only makes the
value of a draft flatter: the members that are written over are gone.
-/
namespace ArchivalQuery.Json

section Maps
variable {α β : Type} {f : α → Option β} {xs : List α}

theorem isSome_mapM_iff : (xs.mapM f).isSome ↔ ∀ x ∈ xs, (f x).isSome := by
  induction xs with
  | nil => simp
  | cons x xs ih =>
    rw [List.mapM_cons, List.forall_mem_cons, ← ih]
    cases f x with
    | none => simp
    | some y => cases xs.mapM f <;> simp

theorem mapM_cons_eq_some_iff {x : α} {ys : List β} : (x :: xs).mapM f = some ys ↔
    ∃ y zs, f x = some y ∧ xs.mapM f = some zs ∧ y :: zs = ys := by
  simp only [List.mapM_cons, Option.bind_eq_bind, Option.bind_eq_some_iff, Option.pure_def,
    Option.some.injEq, exists_and_left]

theorem exists_of_mem_mapM {ys : List β} (h : xs.mapM f = some ys) {y : β} (hy : y ∈ ys) :
    ∃ x ∈ xs, f x = some y := by
  induction xs generalizing ys with
  | nil => simp_all
  | cons x xs ih =>
    rcases mapM_cons_eq_some_iff.mp h with ⟨z, zs, hz, hzs, rfl⟩
    rcases List.mem_cons.mp hy with rfl | hy
    · exact ⟨x, List.mem_cons_self, hz⟩
    · rcases ih hzs hy with ⟨w, hw, hwy⟩
      exact ⟨w, List.mem_cons_of_mem x hw, hwy⟩

end Maps

mutual
/-- How many containers stand around the innermost part of a value. -/
def depth : Json → Nat
  | arr xs => itemsDepth xs + 1
  | obj ms => membersDepth ms + 1
  | _ => 0
def itemsDepth : List Json → Nat
  | [] => 0
  | x :: xs => max (depth x) (itemsDepth xs)
def membersDepth : List (String × Json) → Nat
  | [] => 0
  | (_, v) :: ms => max (depth v) (membersDepth ms)
end

theorem itemsDepth_le_iff {xs : List Json} {n : Nat} :
    itemsDepth xs ≤ n ↔ ∀ x ∈ xs, x.depth ≤ n := by
  induction xs with
  | nil => simp [itemsDepth]
  | cons x xs ih => rw [itemsDepth, Nat.max_le, ih, List.forall_mem_cons]

theorem membersDepth_le_iff {ms : List (String × Json)} {n : Nat} :
    membersDepth ms ≤ n ↔ ∀ m ∈ ms, m.2.depth ≤ n := by
  induction ms with
  | nil => simp [membersDepth]
  | cons m ms ih => rw [membersDepth, Nat.max_le, ih, List.forall_mem_cons]

theorem depth_arr_le_iff {xs : List Json} {n : Nat} :
    (arr xs).depth ≤ n + 1 ↔ ∀ x ∈ xs, x.depth ≤ n := by
  rw [depth, Nat.add_le_add_iff_right, itemsDepth_le_iff]

theorem depth_obj_le_iff {ms : List (String × Json)} {n : Nat} :
    (obj ms).depth ≤ n + 1 ↔ ∀ m ∈ ms, m.2.depth ≤ n := by
  rw [depth, Nat.add_le_add_iff_right, membersDepth_le_iff]

theorem depth_lt_arr {x : Json} {xs : List Json} (hx : x ∈ xs) : x.depth < (arr xs).depth :=
  Nat.lt_succ_of_le (itemsDepth_le_iff.mp (Nat.le_refl _) x hx)

theorem depth_lt_obj {m : String × Json} {ms : List (String × Json)} (hm : m ∈ ms) :
    m.2.depth < (obj ms).depth :=
  Nat.lt_succ_of_le (membersDepth_le_iff.mp (Nat.le_refl _) m hm)

@[simp] theorem depth_single (key : String) (v : Json) : (single key v).depth = v.depth + 1 := by
  rw [single, depth, membersDepth, membersDepth, Nat.max_zero]

theorem depth_of_isScalar {v : Json} (h : v.isScalar) : v.depth = 0 := by
  cases v with
  | str _ | num _ | bool _ => rfl
  | null | arr _ | obj _ => cases h

theorem eq_or_mem_of_mem_setMember {key : String} {v : Json} {ms : List (String × Json)}
    {m : String × Json} (hm : m ∈ setMember key v ms) : m.2 = v ∨ m ∈ ms := by
  induction ms with
  | nil => exact .inl (by rw [List.mem_singleton.mp hm])
  | cons m' ms ih =>
    unfold setMember at hm
    split at hm
    · rcases List.mem_cons.mp hm with rfl | hm
      · exact .inl rfl
      · exact .inr (List.mem_cons_of_mem m' hm)
    · rcases List.mem_cons.mp hm with rfl | hm
      · exact .inr List.mem_cons_self
      · exact (ih hm).imp_right (List.mem_cons_of_mem m')

theorem mem_or_exists_of_mem_foldl {ws ms : List (String × Json)} {m : String × Json}
    (hm : m ∈ ws.foldl (fun ms w => setMember w.1 w.2 ms) ms) :
    m ∈ ms ∨ ∃ w ∈ ws, m.2 = w.2 := by
  induction ws generalizing ms with
  | nil => exact .inl hm
  | cons w ws ih =>
    rcases ih hm with hm | ⟨u, hu, hmu⟩
    · rcases eq_or_mem_of_mem_setMember hm with hvalue | hm
      · exact .inr ⟨w, List.mem_cons_self, hvalue⟩
      · exact .inl hm
    · exact .inr ⟨u, List.mem_cons_of_mem w hu, hmu⟩

/-- Every member that is left was written. -/
theorem exists_of_mem_ofWrites {ws : List (String × Json)} {m : String × Json}
    (hm : m ∈ ofWrites ws) : ∃ w ∈ ws, m.2 = w.2 :=
  (mem_or_exists_of_mem_foldl hm).resolve_left List.not_mem_nil

namespace Draft

mutual
/-- What holds of leaves, and of arrays and objects whenever it holds of their parts, holds of all
drafts. -/
@[elab_as_elim] theorem induction {P : Draft → Prop}
    (leaf : ∀ d, (∀ ds, d ≠ .arr ds) → (∀ ms, d ≠ .obj ms) → P d)
    (arr : ∀ ds, (∀ d ∈ ds, P d) → P (.arr ds))
    (obj : ∀ ms, (∀ m : String × Draft, m ∈ ms → P m.2) → P (.obj ms)) : ∀ d, P d
  | .fault => leaf _ nofun nofun
  | .null => leaf _ nofun nofun
  | .bool _ => leaf _ nofun nofun
  | .num _ => leaf _ nofun nofun
  | .str _ => leaf _ nofun nofun
  | .arr ds => arr ds (items_induction leaf arr obj ds)
  | .obj ms => obj ms (members_induction leaf arr obj ms)
theorem items_induction {P : Draft → Prop}
    (leaf : ∀ d, (∀ ds, d ≠ .arr ds) → (∀ ms, d ≠ .obj ms) → P d)
    (arr : ∀ ds, (∀ d ∈ ds, P d) → P (.arr ds))
    (obj : ∀ ms, (∀ m : String × Draft, m ∈ ms → P m.2) → P (.obj ms)) :
    ∀ ds : List Draft, ∀ d ∈ ds, P d
  | [] => by simp
  | d :: ds =>
    List.forall_mem_cons.mpr ⟨induction leaf arr obj d, items_induction leaf arr obj ds⟩
theorem members_induction {P : Draft → Prop}
    (leaf : ∀ d, (∀ ds, d ≠ .arr ds) → (∀ ms, d ≠ .obj ms) → P d)
    (arr : ∀ ds, (∀ d ∈ ds, P d) → P (.arr ds))
    (obj : ∀ ms, (∀ m : String × Draft, m ∈ ms → P m.2) → P (.obj ms)) :
    ∀ ms : List (String × Draft), ∀ m ∈ ms, P m.2
  | [] => by simp
  | (_, d) :: ms =>
    List.forall_mem_cons.mpr ⟨induction leaf arr obj d, members_induction leaf arr obj ms⟩
end

mutual
def depth : Draft → Nat
  | arr ds => itemsDepth ds + 1
  | obj ms => membersDepth ms + 1
  | _ => 0
def itemsDepth : List Draft → Nat
  | [] => 0
  | d :: ds => max (depth d) (itemsDepth ds)
def membersDepth : List (String × Draft) → Nat
  | [] => 0
  | (_, d) :: ms => max (depth d) (membersDepth ms)
end

theorem itemsDepth_le_iff {ds : List Draft} {n : Nat} :
    itemsDepth ds ≤ n ↔ ∀ d ∈ ds, d.depth ≤ n := by
  induction ds with
  | nil => simp [itemsDepth]
  | cons d ds ih => rw [itemsDepth, Nat.max_le, ih, List.forall_mem_cons]

theorem membersDepth_le_iff {ms : List (String × Draft)} {n : Nat} :
    membersDepth ms ≤ n ↔ ∀ m ∈ ms, m.2.depth ≤ n := by
  induction ms with
  | nil => simp [membersDepth]
  | cons m ms ih => rw [membersDepth, Nat.max_le, ih, List.forall_mem_cons]

theorem items?_eq (read : List Json) (ds : List Draft) :
    items? read ds = (ds.mapM value?).map (read.reverse ++ ·) := by
  induction ds generalizing read with
  | nil => simp [items?]
  | cons d ds ih =>
    rw [items?, List.mapM_cons]
    cases value? d with
    | none => rfl
    | some v =>
      dsimp only
      rw [ih]
      cases ds.mapM value? <;> simp

def memberValue? (m : String × Draft) : Option (String × Json) := m.2.value?.map (m.1, ·)

theorem writes?_eq (read : List (String × Json)) (ms : List (String × Draft)) :
    writes? read ms = (ms.mapM memberValue?).map (read.reverse ++ ·) := by
  induction ms generalizing read with
  | nil => simp [writes?]
  | cons m ms ih =>
    rw [writes?, List.mapM_cons, memberValue?]
    cases value? m.2 with
    | none => rfl
    | some v =>
      dsimp only
      rw [ih]
      cases ms.mapM memberValue? <;> simp

theorem value?_arr (ds : List Draft) : (arr ds).value? = (ds.mapM value?).map .arr := by
  rw [value?, items?_eq]
  cases ds.mapM value? <;> rfl

theorem value?_obj (ms : List (String × Draft)) :
    (obj ms).value? = (ms.mapM memberValue?).map fun ws => .obj (ofWrites ws) := by
  rw [value?, writes?_eq]
  cases ms.mapM memberValue? <;> rfl

theorem sound_arr_iff {ds : List Draft} : (arr ds).sound ↔ ∀ d ∈ ds, d.sound := by
  rw [sound, value?_arr, Option.isSome_map, isSome_mapM_iff]
  rfl

theorem sound_obj_iff {ms : List (String × Draft)} : (obj ms).sound ↔ ∀ m ∈ ms, m.2.sound := by
  rw [sound, value?_obj, Option.isSome_map, isSome_mapM_iff]
  simp only [memberValue?, Option.isSome_map]
  rfl

/-- The value of a draft is nested no deeper than the draft. -/
theorem depth_value?_le {d : Draft} {v : Json} (h : d.value? = some v) : v.depth ≤ d.depth := by
  induction d using induction generalizing v with
  | leaf d harr hobj =>
    cases d with
    | arr ds => exact absurd rfl (harr ds)
    | obj ms => exact absurd rfl (hobj ms)
    | fault => cases h
    | null | bool _ | num _ | str _ =>
      obtain rfl := Option.some.inj h
      exact Nat.le_refl 0
  | arr ds ih =>
    rw [value?_arr, Option.map_eq_some_iff] at h
    rcases h with ⟨xs, hxs, rfl⟩
    refine Nat.succ_le_succ (Json.itemsDepth_le_iff.mpr fun x hx => ?_)
    rcases exists_of_mem_mapM hxs hx with ⟨d, hd, hdx⟩
    exact Nat.le_trans (ih d hd hdx) (itemsDepth_le_iff.mp (Nat.le_refl _) d hd)
  | obj ms ih =>
    rw [value?_obj, Option.map_eq_some_iff] at h
    rcases h with ⟨ws, hws, rfl⟩
    refine Nat.succ_le_succ (Json.membersDepth_le_iff.mpr fun w hw => ?_)
    rcases exists_of_mem_ofWrites hw with ⟨u, hu, hvalue⟩
    rcases exists_of_mem_mapM hws hu with ⟨m, hm, hmu⟩
    rcases Option.map_eq_some_iff.mp hmu with ⟨v, hv, rfl⟩
    rw [hvalue]
    exact Nat.le_trans (ih m hm hv) (membersDepth_le_iff.mp (Nat.le_refl _) m hm)

end Draft
end ArchivalQuery.Json
