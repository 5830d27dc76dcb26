import ArchivalQuery.Json.Basic

/-! # JSON as it is written

A draft keeps every member of an object, repeated names included, so that a record can refuse to
have a field twice.  A part that is well formed but has no value is a fault.  A fault does no harm
in a part that nobody reads; a draft without faults has a value.
-/
namespace ArchivalQuery.Json

inductive Draft
  /-- A number too large to be kept, a string with half a surrogate pair, or a container nested too
  deeply. -/
  | fault
  | null
  | bool (value : Bool)
  | num (value : Number)
  | str (text : String)
  | arr (items : List Draft)
  | obj (members : List (String × Draft))

instance : Inhabited Draft := ⟨.null⟩

namespace Draft

mutual
/-- The value of a draft without faults.  A repeated name keeps its first place and its last
value. -/
def value? : Draft → Option Json
  | fault => none
  | null => some .null
  | bool b => some (.bool b)
  | num n => some (.num n)
  | str s => some (.str s)
  | arr ds => (items? [] ds).map .arr
  | obj ms => (writes? [] ms).map fun ws => .obj (ofWrites ws)
/-- The values of a list of drafts, after those read before, the latest first. -/
def items? (read : List Json) : List Draft → Option (List Json)
  | [] => some read.reverse
  | d :: ds =>
    match value? d with
    | some v => items? (v :: read) ds
    | none => none
def writes? (read : List (String × Json)) :
    List (String × Draft) → Option (List (String × Json))
  | [] => some read.reverse
  | (k, d) :: ms =>
    match value? d with
    | some v => writes? ((k, v) :: read) ms
    | none => none
end

def sound (d : Draft) : Bool := d.value?.isSome

end Draft

mutual
def draft : Json → Draft
  | null => .null
  | bool b => .bool b
  | num n => .num n
  | str s => .str s
  | arr xs => .arr (itemDrafts xs)
  | obj ms => .obj (memberDrafts ms)
def itemDrafts : List Json → List Draft
  | [] => []
  | x :: xs => draft x :: itemDrafts xs
def memberDrafts : List (String × Json) → List (String × Draft)
  | [] => []
  | (k, v) :: ms => (k, draft v) :: memberDrafts ms
end

open Draft

mutual
theorem isSome_value?_draft : (v : Json) → v.draft.value?.isSome = true
  | null | bool _ | num _ | str _ => by simp [draft, value?]
  | arr xs => by simpa [draft, value?] using isSome_items?_itemDrafts [] xs
  | obj ms => by simpa [draft, value?] using isSome_writes?_memberDrafts [] ms
theorem isSome_items?_itemDrafts (read : List Json) :
    (xs : List Json) → (items? read (itemDrafts xs)).isSome = true
  | [] => by simp [itemDrafts, items?]
  | x :: xs => by
    obtain ⟨v, h⟩ := Option.isSome_iff_exists.1 (isSome_value?_draft x)
    simpa [itemDrafts, items?, h] using isSome_items?_itemDrafts (v :: read) xs
theorem isSome_writes?_memberDrafts (read : List (String × Json)) :
    (ms : List (String × Json)) → (writes? read (memberDrafts ms)).isSome = true
  | [] => by simp [memberDrafts, writes?]
  | (k, x) :: ms => by
    obtain ⟨v, h⟩ := Option.isSome_iff_exists.1 (isSome_value?_draft x)
    simpa [memberDrafts, writes?, h] using isSome_writes?_memberDrafts ((k, v) :: read) ms
end

/-- What is written for a value has no fault. -/
@[simp] theorem sound_draft (v : Json) : v.draft.sound = true := isSome_value?_draft v

end ArchivalQuery.Json
