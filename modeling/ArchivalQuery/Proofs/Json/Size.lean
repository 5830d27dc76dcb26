import ArchivalQuery.Proofs.Json.Nesting
import Mathlib.Data.String.Basic

/-! # Size of values

How many bytes the compact text of a value takes.  The count leaves floats out: it is exact for a
value without them, and it is never more for the value of a draft than for the draft.
-/
namespace ArchivalQuery.Json
open String (utf8Len)

def quotedSize (s : String) : Nat := utf8Len (quoted s)

namespace Draft

mutual
/-- The bytes of a draft in compact form, where a float or a fault counts as none. -/
def size : Draft → Nat
  | fault => 0
  | null => 4
  | bool true => 4
  | bool false => 5
  | num (.int n _) => (Decimal.integer n).length
  | num (.float _) => 0
  | str s => quotedSize s
  | arr ds => max 1 (itemsSize ds) + 1
  | obj ms => max 1 (membersSize ms) + 1
/-- The bytes of some items, each with the comma or the bracket after it. -/
def itemsSize : List Draft → Nat
  | [] => 0
  | d :: ds => size d + 1 + itemsSize ds
/-- The bytes of some members, each with its colon and the comma or the brace after it. -/
def membersSize : List (String × Draft) → Nat
  | [] => 0
  | (k, d) :: ms => quotedSize k + 1 + size d + 1 + membersSize ms
end

end Draft

mutual
/-- Whether all numbers of a value are integers that are kept exact. -/
def Integral : Json → Prop
  | num (.float _) => False
  | arr xs => ItemsIntegral xs
  | obj ms => MembersIntegral ms
  | _ => True
def ItemsIntegral : List Json → Prop
  | [] => True
  | x :: xs => Integral x ∧ ItemsIntegral xs
def MembersIntegral : List (String × Json) → Prop
  | [] => True
  | (_, v) :: ms => Integral v ∧ MembersIntegral ms
end

open Draft (itemsSize membersSize)

/-- The characters of numbers take one byte each. -/
theorem utf8Size_of_isPart {c : Char} (h : Decimal.Numeral.isPart c) : c.utf8Size = 1 := by
  rw [Char.utf8Size_eq_one_iff]
  simp only [Decimal.Numeral.isPart, Decimal.Numeral.isMark, Bool.or_eq_true, beq_iff_eq] at h
  rcases h with ((h | rfl) | rfl) | (rfl | rfl) | rfl
  · unfold Char.isDigit at h
    simp only [Bool.and_eq_true, decide_eq_true_eq] at h
    exact UInt32.le_trans h.2 (by decide)
  all_goals decide

theorem utf8Len_of_isPart {cs : List Char} (h : ∀ c ∈ cs, Decimal.Numeral.isPart c) :
    utf8Len cs = cs.length := by
  induction cs with
  | nil => rfl
  | cons c cs ih =>
    rw [List.forall_mem_cons] at h
    rw [String.utf8Len_cons, ih h.2, utf8Size_of_isPart h.1, List.length_cons]

theorem utf8Len_member (key : String) (cs : List Char) :
    utf8Len (quoted key ++ ':' :: cs) = quotedSize key + 1 + utf8Len cs := by
  have hcolon : Char.utf8Size ':' = 1 := rfl
  rw [String.utf8Len_append, String.utf8Len_cons, hcolon, quotedSize]
  omega

theorem utf8Len_bracket {c : Char} (hc : c.utf8Size = 1) (cs : List Char) :
    utf8Len (c :: cs) = utf8Len cs + 1 := by
  rw [String.utf8Len_cons, hc]

mutual
/-- The compact text of a value without floats has exactly the size of its draft. -/
theorem utf8Len_chars : ∀ {v : Json}, v.Integral → utf8Len v.chars = v.draft.size
  | .null, _ | .bool true, _ | .bool false, _ | .str _, _ | .arr [], _ | .obj [], _ => by rfl
  | .num (.int n _), _ => utf8Len_of_isPart Decimal.isPart_integer
  | .arr (x :: xs), h => by
    rw [chars, utf8Len_bracket rfl, String.utf8Len_append, utf8Len_chars h.1,
      utf8Len_moreItems h.2, draft, Draft.size, itemDrafts, itemsSize]
    omega
  | .obj ((k, v) :: ms), h => by
    rw [chars, utf8Len_bracket rfl, utf8Len_member, String.utf8Len_append, utf8Len_chars h.1,
      utf8Len_moreMembers h.2, draft, Draft.size, memberDrafts, membersSize]
    omega
theorem utf8Len_moreItems : ∀ {xs : List Json}, ItemsIntegral xs →
    utf8Len (moreItems xs) = itemsSize (itemDrafts xs) + 1
  | [], _ => rfl
  | x :: xs, h => by
    rw [moreItems, utf8Len_bracket rfl, String.utf8Len_append, utf8Len_chars h.1,
      utf8Len_moreItems h.2, itemDrafts, itemsSize]
    omega
theorem utf8Len_moreMembers : ∀ {ms : List (String × Json)}, MembersIntegral ms →
    utf8Len (moreMembers ms) = membersSize (memberDrafts ms) + 1
  | [], _ => rfl
  | (k, v) :: ms, h => by
    rw [moreMembers, utf8Len_bracket rfl, utf8Len_member, String.utf8Len_append,
      utf8Len_chars h.1, utf8Len_moreMembers h.2, memberDrafts, membersSize]
    omega
end

theorem utf8ByteSize_text {v : Json} (h : v.Integral) : v.text.utf8ByteSize = v.draft.size := by
  rw [text, String.utf8ByteSize_ofList, utf8Len_chars h]

/-- A write adds its member at most. -/
theorem membersSize_setMember_le (key : String) (v : Json) (ms : List (String × Json)) :
    membersSize (memberDrafts (setMember key v ms)) ≤
      membersSize (memberDrafts ms) + membersSize (memberDrafts [(key, v)]) := by
  induction ms with
  | nil => exact Nat.le_add_left _ _
  | cons m ms ih =>
    unfold setMember
    split
    · rename_i hkey
      simp only [memberDrafts, membersSize, hkey]
      omega
    · simp only [memberDrafts, membersSize] at ih ⊢
      omega

theorem membersSize_foldl_le (ws ms : List (String × Json)) :
    membersSize (memberDrafts (ws.foldl (fun ms w => setMember w.1 w.2 ms) ms)) ≤
      membersSize (memberDrafts ms) + membersSize (memberDrafts ws) := by
  induction ws generalizing ms with
  | nil => exact Nat.le_refl _
  | cons w ws ih =>
    have hset := membersSize_setMember_le w.1 w.2 ms
    have hrest := ih (setMember w.1 w.2 ms)
    simp only [List.foldl_cons, memberDrafts, membersSize] at hset hrest ⊢
    omega

theorem membersSize_ofWrites_le (ws : List (String × Json)) :
    membersSize (memberDrafts (ofWrites ws)) ≤ membersSize (memberDrafts ws) :=
  Nat.le_trans (membersSize_foldl_le ws []) (Nat.le_of_eq (Nat.zero_add _))

namespace Draft

theorem itemsSize_mapM_le {ds : List Draft} {xs : List Json} (hxs : ds.mapM value? = some xs)
    (h : ∀ d ∈ ds, ∀ v, d.value? = some v → v.draft.size ≤ d.size) :
    itemsSize (itemDrafts xs) ≤ itemsSize ds := by
  induction ds generalizing xs with
  | nil =>
    obtain rfl := Option.some.inj hxs
    exact Nat.le_refl _
  | cons d ds ih =>
    rcases mapM_cons_eq_some_iff.mp hxs with ⟨v, vs, hv, hvs, rfl⟩
    rw [List.forall_mem_cons] at h
    have hd := h.1 v hv
    have hds := ih hvs h.2
    simp only [itemDrafts, itemsSize]
    omega

theorem membersSize_mapM_le {ms : List (String × Draft)} {ws : List (String × Json)}
    (hws : ms.mapM memberValue? = some ws)
    (h : ∀ m ∈ ms, ∀ v, m.2.value? = some v → v.draft.size ≤ m.2.size) :
    membersSize (memberDrafts ws) ≤ membersSize ms := by
  induction ms generalizing ws with
  | nil =>
    obtain rfl := Option.some.inj hws
    exact Nat.le_refl _
  | cons m ms ih =>
    rcases mapM_cons_eq_some_iff.mp hws with ⟨_, vs, hmember, hvs, rfl⟩
    rcases Option.map_eq_some_iff.mp hmember with ⟨v, hv, rfl⟩
    rw [List.forall_mem_cons] at h
    have hm := h.1 v hv
    have hms := ih hvs h.2
    simp only [memberDrafts, membersSize]
    omega

/-- The value of a draft is no larger than the draft: members that are written over are gone. -/
theorem size_value?_le {d : Draft} {v : Json} (h : d.value? = some v) :
    v.draft.size ≤ d.size := by
  induction d using induction generalizing v with
  | leaf d harr hobj =>
    cases d with
    | arr ds => exact absurd rfl (harr ds)
    | obj ms => exact absurd rfl (hobj ms)
    | fault => cases h
    | null | bool _ | num _ | str _ =>
      obtain rfl := Option.some.inj h
      exact Nat.le_refl _
  | arr ds ih =>
    rw [value?_arr, Option.map_eq_some_iff] at h
    rcases h with ⟨xs, hxs, rfl⟩
    have hitems := itemsSize_mapM_le hxs fun d hd _ => ih d hd
    simp only [draft, size]
    omega
  | obj ms ih =>
    rw [value?_obj, Option.map_eq_some_iff] at h
    rcases h with ⟨ws, hws, rfl⟩
    have hmembers := membersSize_mapM_le hws fun m hm _ => ih m hm
    have hwrites := membersSize_ofWrites_le ws
    simp only [draft, size]
    omega

end Draft
end ArchivalQuery.Json
