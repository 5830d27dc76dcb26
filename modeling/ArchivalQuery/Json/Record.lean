import ArchivalQuery.Json.Draft

/-! # Records in JSON

A record is an object that has its fields by name, or an array that has them by place.  No field may
stand twice.  Names that the record does not know are passed over, and what they hold need not have
a value.  A variant carries its tag under a name of its own, or in first place.
-/
namespace ArchivalQuery.Json

def int32? (v : Json) : Option Int32 :=
  v.int?.bind fun n =>
    if -0x80000000 ≤ n ∧ n < 0x80000000 then some (Int32.ofInt n) else none

def uint32? (v : Json) : Option UInt32 :=
  v.int?.bind fun n => if 0 ≤ n ∧ n < 0x100000000 then some (UInt32.ofNat n.toNat) else none

def strings? (v : Json) : Option (List String) := v.arr?.bind (·.mapM str?)

/-- The object of the fields that are present, in order. -/
def record (fields : List (String × Option Json)) : Json :=
  obj (fields.filterMap fun f => f.2.map (f.1, ·))

namespace Draft

def view? {α : Type} (view : Json → Option α) (d : Draft) : Option α := d.value?.bind view

/-- The member of a name, unless the name stands twice. -/
def member? (name : String) (ms : List (String × Draft)) : Option (Option Draft) :=
  match ms.filter fun m => m.1 == name with
  | [] => some none
  | [m] => some (some m.2)
  | _ => none

/-- The named fields of a record; an array may leave out the last ones. -/
def fields? (names : List String) : Draft → Option (List (Option Draft))
  | obj ms => names.mapM fun n => member? n ms
  | arr ds =>
    if ds.length ≤ names.length then
      some (ds.map some ++ List.replicate (names.length - ds.length) none)
    else none
  | _ => none

/-- The tag of a variant and the record it tags.  A variant has a value in each of its parts. -/
def variant? (tag : String) (d : Draft) : Option (String × Draft) :=
  if !d.sound then none else
    match d with
    | obj ms =>
      match member? tag ms with
      | some (some (str t)) => some (t, obj ms)
      | _ => none
    | arr (str t :: ds) => some (t, arr ds)
    | _ => none

/-- The name of a variant without fields: a string, or the only name of an object that holds
null. -/
def label? : Draft → Option String
  | str s => some s
  | obj [(s, null)] => some s
  | _ => none

/-- The label of a part of a variant, where an object without members counts as null. -/
def innerLabel? : Draft → Option String
  | obj [(s, obj [])] => some s
  | d => d.label?

def word? {α : Type} (words : List α) (label : α → String) (d : Draft) : Option α :=
  d.label?.bind fun s => words.find? fun w => label w == s

/-- A field that may be left out or null. -/
def optional? {α : Type} (read : Draft → Option α) : Option Draft → Option (Option α)
  | none | some null => some none
  | some d => (read d).map some

def list? {α : Type} (read : Draft → Option α) : Draft → Option (List α)
  | arr ds => ds.mapM read
  | _ => none

end Draft
end ArchivalQuery.Json
