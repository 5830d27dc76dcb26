import ArchivalQuery.Proofs.Json.Depth
import ArchivalQuery.Proofs.Json.Members
import Mathlib.Data.List.Induction
import Mathlib.Data.List.Nodup

/-! # Writes of members

Members are written one after the other.  The first write of a key decides its place and the last
one its value, so that no key stands twice.
-/
namespace ArchivalQuery.Json

section One
variable {key : String} {v : Json} {ms : List (String × Json)}

/-- A key that is new comes last. -/
theorem setMember_of_notMem (h : key ∉ ms.map Prod.fst) :
    setMember key v ms = ms ++ [(key, v)] := by
  induction ms with
  | nil => rfl
  | cons m ms ih =>
    rw [List.map_cons, List.mem_cons, not_or] at h
    rw [setMember, if_neg (Ne.symm h.1), ih h.2, List.cons_append]

/-- A key that is there keeps its place. -/
theorem keys_setMember_of_mem (h : key ∈ ms.map Prod.fst) :
    (setMember key v ms).map Prod.fst = ms.map Prod.fst := by
  induction ms with
  | nil => exact absurd h List.not_mem_nil
  | cons m ms ih =>
    unfold setMember
    split
    · rfl
    · rename_i hne
      rw [List.map_cons, List.mem_cons] at h
      rw [List.map_cons, List.map_cons, ih (h.resolve_left (Ne.symm hne))]

theorem nodup_setMember (hms : (ms.map Prod.fst).Nodup) (key : String) (v : Json) :
    ((setMember key v ms).map Prod.fst).Nodup := by
  by_cases h : key ∈ ms.map Prod.fst
  · rwa [keys_setMember_of_mem h]
  · rw [setMember_of_notMem h, List.map_append]
    refine List.nodup_append.mpr ⟨hms, List.nodup_singleton key, fun k hk k' hk' => ?_⟩
    rw [List.mem_singleton.mp hk']
    exact ne_of_mem_of_not_mem hk h

/-- A write is what is found under its key, and under no other. -/
theorem lookup_setMember (key : String) (v : Json) (ms : List (String × Json)) (k : String) :
    (setMember key v ms).lookup k = if k = key then some v else ms.lookup k := by
  induction ms with
  | nil => exact lookup_cons key v [] k
  | cons m ms ih =>
    rcases m with ⟨l, w⟩
    rw [setMember]
    by_cases hl : l = key
    · subst hl
      rw [if_pos rfl, lookup_cons, lookup_cons]
      by_cases h : k = l
      · rw [if_pos h, if_pos h]
      · rw [if_neg h, if_neg h, if_neg h]
    · rw [if_neg hl, lookup_cons, lookup_cons, ih]
      by_cases h : k = l
      · rw [if_pos h, if_pos h, if_neg fun hk => hl (h.symm.trans hk)]
      · rw [if_neg h, if_neg h]

end One

theorem ofWrites_concat (ws : List (String × Json)) (w : String × Json) :
    ofWrites (ws ++ [w]) = setMember w.1 w.2 (ofWrites ws) := by
  rw [ofWrites, List.foldl_append]
  rfl

/-- The keys stand where they were first written. -/
theorem keys_ofWrites (ws : List (String × Json)) :
    (ofWrites ws).map Prod.fst = (ws.map Prod.fst).eraseDups := by
  induction ws using List.reverseRecOn with
  | nil => rfl
  | append_singleton ws w ih =>
    rw [ofWrites_concat, List.map_append, List.eraseDups_append, ← ih, List.map_singleton]
    by_cases h : w.1 ∈ ws.map Prod.fst
    · have hold : w.1 ∈ (ofWrites ws).map Prod.fst := by rwa [ih, List.mem_eraseDups]
      simp [keys_setMember_of_mem hold, List.removeAll, h]
    · have hnew : w.1 ∉ (ofWrites ws).map Prod.fst := by rwa [ih, List.mem_eraseDups]
      simp [setMember_of_notMem hnew, List.removeAll, h, List.eraseDups_cons]

/-- Each key has the value that was last written for it. -/
theorem lookup_ofWrites (ws : List (String × Json)) (key : String) :
    (ofWrites ws).lookup key = (ws.filter (·.1 = key)).getLast?.map Prod.snd := by
  induction ws using List.reverseRecOn with
  | nil => rfl
  | append_singleton ws w ih =>
    rw [ofWrites_concat, lookup_setMember, List.filter_append, List.getLast?_append]
    by_cases h : key = w.1
    · simp [h]
    · simp [h, Ne.symm h, ih]

theorem nodup_ofWrites (ws : List (String × Json)) : ((ofWrites ws).map Prod.fst).Nodup := by
  induction ws using List.reverseRecOn with
  | nil => exact List.nodup_nil
  | append_singleton ws w ih =>
    rw [ofWrites_concat]
    exact nodup_setMember ih w.1 w.2

/-- Later writes replace earlier ones of the same name, so that no name stands twice. -/
theorem distinct_ofWrites {ws : List (String × Json)} (hws : ∀ w ∈ ws, w.2.Distinct) :
    (obj (ofWrites ws)).Distinct := by
  refine distinct_obj_iff.mpr ⟨nodup_ofWrites ws, fun m hm => ?_⟩
  rcases exists_of_mem_ofWrites hm with ⟨w, hw, hvalue⟩
  rw [hvalue]
  exact hws w hw

/-- Writes of different keys are the members, in order. -/
theorem ofWrites_of_nodup {ws : List (String × Json)} (hws : (ws.map Prod.fst).Nodup) :
    ofWrites ws = ws := by
  induction ws using List.reverseRecOn with
  | nil => rfl
  | append_singleton ws w ih =>
    rw [List.map_append, List.nodup_append] at hws
    obtain ⟨hrest, -, hne⟩ := hws
    have hnew : w.1 ∉ ws.map Prod.fst := fun hw => hne _ hw _ List.mem_cons_self rfl
    rw [ofWrites_concat, ih hrest, setMember_of_notMem hnew]

end ArchivalQuery.Json
