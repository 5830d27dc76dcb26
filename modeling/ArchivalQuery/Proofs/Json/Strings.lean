import ArchivalQuery.Proofs.Json.Members

/-! # Other strings

A value with other strings in it: keys stay, and so does everything that is no string.
-/
namespace ArchivalQuery.Json
variable (g : String → String)

mutual
def mapStrings : Json → Json
  | str s => str (g s)
  | arr xs => arr (mapItems xs)
  | obj ms => obj (mapMembers ms)
  | v => v
def mapItems : List Json → List Json
  | [] => []
  | x :: xs => mapStrings x :: mapItems xs
def mapMembers : List (String × Json) → List (String × Json)
  | [] => []
  | (key, v) :: ms => (key, mapStrings v) :: mapMembers ms
end

theorem mapItems_eq_map (xs : List Json) : mapItems g xs = xs.map (mapStrings g) := by
  induction xs with
  | nil => rfl
  | cons x xs ih => rw [mapItems, ih, List.map_cons]

theorem mapMembers_eq_map (ms : List (String × Json)) :
    mapMembers g ms = ms.map fun m => (m.1, m.2.mapStrings g) := by
  induction ms with
  | nil => rfl
  | cons m ms ih => rw [mapMembers, ih, List.map_cons]

@[simp] theorem mapStrings_str (s : String) : (str s).mapStrings g = str (g s) := rfl

@[simp] theorem mapStrings_bool (b : Bool) : (bool b).mapStrings g = bool b := rfl

@[simp] theorem mapStrings_arr (xs : List Json) :
    (arr xs).mapStrings g = arr (xs.map (mapStrings g)) := by
  rw [mapStrings, mapItems_eq_map]

@[simp] theorem mapStrings_obj (ms : List (String × Json)) :
    (obj ms).mapStrings g = obj (ms.map fun m => (m.1, m.2.mapStrings g)) := by
  rw [mapStrings, mapMembers_eq_map]

@[simp] theorem mapStrings_single (key : String) (v : Json) :
    (single key v).mapStrings g = single key (v.mapStrings g) := by
  simp [single]

@[simp] theorem mapStrings_ofStrings (ss : List String) :
    (ofStrings ss).mapStrings g = ofStrings (ss.map g) := by
  simp [ofStrings, Function.comp_def]

@[simp] theorem mapStrings_ofNat (n : Nat) : (ofNat n).mapStrings g = ofNat n := by
  unfold ofNat
  split
  · rfl
  · split <;> rfl

end ArchivalQuery.Json
