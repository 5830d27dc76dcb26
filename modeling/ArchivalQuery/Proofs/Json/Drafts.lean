import ArchivalQuery.Proofs.Json.Writes

/-! # Values and their drafts

The value of a draft repeats no name, whatever the draft does.  A draft that repeats no name loses
nothing where it becomes a value, and what is written for a value without repeated keys has that
value again.
-/
namespace ArchivalQuery.Json

namespace Draft

/-- The value of a draft repeats no key. -/
theorem distinct_of_value? {d : Draft} {v : Json} (h : d.value? = some v) : v.Distinct := by
  induction d using induction generalizing v with
  | leaf d harr hobj =>
    cases d with
    | arr ds => exact absurd rfl (harr ds)
    | obj ms => exact absurd rfl (hobj ms)
    | fault => cases h
    | null | bool _ | num _ | str _ =>
      obtain rfl := Option.some.inj h
      trivial
  | arr ds ih =>
    rw [value?_arr, Option.map_eq_some_iff] at h
    rcases h with ⟨xs, hxs, rfl⟩
    refine distinct_arr_iff.mpr fun x hx => ?_
    rcases exists_of_mem_mapM hxs hx with ⟨d, hd, hdx⟩
    exact ih d hd hdx
  | obj ms ih =>
    rw [value?_obj, Option.map_eq_some_iff] at h
    rcases h with ⟨ws, hws, rfl⟩
    refine distinct_ofWrites fun w hw => ?_
    rcases exists_of_mem_mapM hws hw with ⟨m, hm, hmw⟩
    rcases Option.map_eq_some_iff.mp hmw with ⟨x, hx, rfl⟩
    exact ih m hm hx

end Draft

theorem itemDrafts_eq_map (xs : List Json) : itemDrafts xs = xs.map draft := by
  induction xs with
  | nil => rfl
  | cons x xs ih => rw [itemDrafts, ih, List.map_cons]

theorem memberDrafts_eq_map (ms : List (String × Json)) :
    memberDrafts ms = ms.map fun m => (m.1, m.2.draft) := by
  induction ms with
  | nil => rfl
  | cons m ms ih => rw [memberDrafts, ih, List.map_cons]

theorem draft_arr (xs : List Json) : (arr xs).draft = .arr (xs.map draft) := by
  rw [draft, itemDrafts_eq_map]

@[simp] theorem draft_str (s : String) : (str s).draft = .str s := rfl

theorem draft_obj (ms : List (String × Json)) :
    (obj ms).draft = .obj (ms.map fun m => (m.1, m.2.draft)) := by
  rw [draft, memberDrafts_eq_map]

/-- A map that undoes another one item by item gives back the list. -/
theorem mapM_map_eq_some {α β : Type} {read : β → Option α} {write : α → β} {xs : List α}
    (h : ∀ x ∈ xs, read (write x) = some x) : (xs.map write).mapM read = some xs := by
  induction xs with
  | nil => rfl
  | cons x xs ih =>
    rw [List.forall_mem_cons] at h
    rw [List.map_cons]
    exact mapM_cons_eq_some_iff.mpr ⟨x, xs, h.1, ih h.2, rfl⟩

/-- The converse: items that were read one by one are written back as they were. -/
theorem map_eq_of_mapM {α β : Type} {read : β → Option α} {write : α → β} {ys : List β}
    {xs : List α} (hxs : ys.mapM read = some xs)
    (h : ∀ y ∈ ys, ∀ x, read y = some x → write x = y) : xs.map write = ys := by
  induction ys generalizing xs with
  | nil =>
    obtain rfl := Option.some.inj hxs
    rfl
  | cons y ys ih =>
    rcases mapM_cons_eq_some_iff.mp hxs with ⟨x, zs, hx, hzs, rfl⟩
    rw [List.forall_mem_cons] at h
    rw [List.map_cons, h.1 x hx, ih hzs h.2]

/-- What is written for a value without repeated keys has that value. -/
theorem Distinct.value?_draft {v : Json} (hv : v.Distinct) : v.draft.value? = some v := by
  induction v using induction with
  | leaf v harr hobj =>
    cases v with
    | arr xs => exact absurd harr (Option.some_ne_none xs)
    | obj ms => exact absurd hobj (Option.some_ne_none ms)
    | null | bool _ | num _ | str _ => rfl
  | arr xs ih =>
    have hxs : (xs.map draft).mapM Draft.value? = some xs :=
      mapM_map_eq_some fun x hx => ih x hx (hv.item hx)
    rw [draft_arr, Draft.value?_arr, hxs, Option.map_some]
  | obj ms ih =>
    have hms : (ms.map fun m => (m.1, m.2.draft)).mapM Draft.memberValue? = some ms :=
      mapM_map_eq_some fun m hm => by
        rw [Draft.memberValue?, ih m hm (hv.member hm), Option.map_some]
    rw [draft_obj, Draft.value?_obj, hms, Option.map_some, ofWrites_of_nodup hv.nodup]

namespace Draft

mutual
/-- Whether no object inside a draft repeats a name. -/
def Distinct : Draft → Prop
  | arr ds => ItemsDistinct ds
  | obj ms => (ms.map Prod.fst).Nodup ∧ MembersDistinct ms
  | _ => True
def ItemsDistinct : List Draft → Prop
  | [] => True
  | d :: ds => Distinct d ∧ ItemsDistinct ds
def MembersDistinct : List (String × Draft) → Prop
  | [] => True
  | (_, d) :: ms => Distinct d ∧ MembersDistinct ms
end

theorem itemsDistinct_iff {ds : List Draft} : ItemsDistinct ds ↔ ∀ d ∈ ds, d.Distinct := by
  induction ds with
  | nil => simp [ItemsDistinct]
  | cons d ds ih => rw [ItemsDistinct, ih, List.forall_mem_cons]

theorem membersDistinct_iff {ms : List (String × Draft)} :
    MembersDistinct ms ↔ ∀ m ∈ ms, m.2.Distinct := by
  induction ms with
  | nil => simp [MembersDistinct]
  | cons m ms ih => rw [MembersDistinct, ih, List.forall_mem_cons]

/-- A draft without repeated names has a value of the same form. -/
theorem draft_of_value? {d : Draft} {v : Json} (h : d.value? = some v) (hd : d.Distinct) :
    v.draft = d := by
  induction d using induction generalizing v with
  | leaf d harr hobj =>
    cases d with
    | arr ds => exact absurd rfl (harr ds)
    | obj ms => exact absurd rfl (hobj ms)
    | fault => cases h
    | null | bool _ | num _ | str _ =>
      obtain rfl := Option.some.inj h
      rfl
  | arr ds ih =>
    rw [Distinct, itemsDistinct_iff] at hd
    rw [value?_arr, Option.map_eq_some_iff] at h
    rcases h with ⟨xs, hxs, rfl⟩
    rw [draft_arr, map_eq_of_mapM hxs fun d hmem x hx => ih d hmem hx (hd d hmem)]
  | obj ms ih =>
    rw [Distinct, membersDistinct_iff] at hd
    rw [value?_obj, Option.map_eq_some_iff] at h
    rcases h with ⟨ws, hws, rfl⟩
    have hdrafts : ws.map (fun m => (m.1, m.2.draft)) = ms := by
      refine map_eq_of_mapM hws fun m hmem w hw => ?_
      rcases Option.map_eq_some_iff.mp hw with ⟨x, hx, rfl⟩
      rw [ih m hmem hx (hd.2 m hmem)]
    have hnames : ws.map Prod.fst = ms.map Prod.fst := by
      rw [← hdrafts, List.map_map]
      rfl
    rw [ofWrites_of_nodup (hnames ▸ hd.1), draft_obj, hdrafts]

end Draft

mutual
theorem depth_draft : (v : Json) → v.draft.depth = v.depth
  | null | bool _ | num _ | str _ => rfl
  | arr xs => congrArg (· + 1) (itemsDepth_itemDrafts xs)
  | obj ms => congrArg (· + 1) (membersDepth_memberDrafts ms)
theorem itemsDepth_itemDrafts :
    (xs : List Json) → Draft.itemsDepth (itemDrafts xs) = itemsDepth xs
  | [] => rfl
  | x :: xs => congrArg₂ max (depth_draft x) (itemsDepth_itemDrafts xs)
theorem membersDepth_memberDrafts :
    (ms : List (String × Json)) → Draft.membersDepth (memberDrafts ms) = membersDepth ms
  | [] => rfl
  | (_, v) :: ms => congrArg₂ max (depth_draft v) (membersDepth_memberDrafts ms)
end

/-- A value is nested as deeply as its draft, if that repeats no name. -/
theorem Draft.depth_value? {d : Draft} {v : Json} (h : d.value? = some v) (hd : d.Distinct) :
    v.depth = d.depth := by
  rw [← depth_draft, draft_of_value? h hd]

end ArchivalQuery.Json
