/-! # TOML documents

Values of a TOML document, and the tables that its lines build up.  How a table came to be decides
what may still be added to it: a table is closed once it has been written in one piece, and a header
may not name a table that has one already.
-/
namespace ArchivalQuery.Toml

/-- A TOML value.  Of floats and moments only the text is kept. -/
inductive Value
  /-- A number that is well formed but has no value, such as one that is too large. -/
  | fault
  | string (text : String)
  | integer (value : Int)
  | float (text : String)
  | boolean (value : Bool)
  | moment (text : String)
  | array (items : List Value)
  | table (members : List (String × Value))

mutual
/-- Whether a value has no fault in any part. -/
def Value.sound : Value → Bool
  | .fault => false
  | .array vs => itemsSound vs
  | .table ms => membersSound ms
  | _ => true
def itemsSound : List Value → Bool
  | [] => true
  | v :: vs => v.sound && itemsSound vs
def membersSound : List (String × Value) → Bool
  | [] => true
  | (_, v) :: ms => v.sound && membersSound ms
end

inductive Origin
  /-- On the way to a table that a header names. -/
  | implied
  /-- By its own header. -/
  | header
  /-- By the leading parts of a dotted key. -/
  | dotted
deriving DecidableEq

inductive Item
  | value (v : Value)
  | table (origin : Origin) (entries : List (String × Item))
  /-- The tables of an array of tables, the latest first. -/
  | tables (elements : List (List (String × Item)))

abbrev Entries := List (String × Item)

namespace Entries

/-- Puts an entry in the place of one with its key, or at the end. -/
def put (key : String) (item : Item) : Entries → Entries
  | [] => [(key, item)]
  | (k, i) :: es => if k = key then (k, item) :: es else (k, i) :: put key item es

/-- Whether a table may be entered: any by a header, and by a dotted key only one that no header
names.  The table that takes the entry of a dotted key was made by dotted keys. -/
def enterable (way origin : Origin) (last : Bool) : Bool :=
  match way with
  | .dotted => if last then origin = .dotted else origin ≠ .header
  | _ => true

/-- Changes the table at the end of a path; missing tables on the way are made. -/
def update (way : Origin) (change : Entries → Option Entries) :
    List String → Entries → Option Entries
  | [], es => change es
  | k :: ks, es =>
    match es.lookup k with
    | none => do return es.put k (.table way (← update way change ks []))
    | some (.table origin sub) =>
      if enterable way origin ks.isEmpty then do
        return es.put k (.table origin (← update way change ks sub))
      else none
    | some (.tables (e :: more)) =>
      if way = .dotted && ks.isEmpty then none
      else do return es.put k (.tables ((← update way change ks e) :: more))
    | some _ => none

def openTable (path : List String) (es : Entries) : Option Entries :=
  match path.getLast? with
  | none => none
  | some key =>
    update .implied (fun es =>
      match es.lookup key with
      | none => some (es.put key (.table .header []))
      | some (.table .implied sub) => some (es.put key (.table .header sub))
      | some _ => none) path.dropLast es

def openElement (path : List String) (es : Entries) : Option Entries :=
  match path.getLast? with
  | none => none
  | some key =>
    update .implied (fun es =>
      match es.lookup key with
      | none => some (es.put key (.tables [[]]))
      | some (.tables elements) => some (es.put key (.tables ([] :: elements)))
      | some _ => none) path.dropLast es

/-- Gives a value to a dotted key, which must not have one, in the table of a header. -/
def assign (header key : List String) (v : Value) (es : Entries) : Option Entries :=
  match key.getLast? with
  | none => none
  | some last =>
    update .implied (update .dotted (fun es =>
      match es.lookup last with
      | none => some (es.put last (.value v))
      | some _ => none) key.dropLast) header es

end Entries

mutual
def Item.toValue : Item → Value
  | .value v => v
  | .table _ es => .table (Entries.toMembers es)
  | .tables elements => .array (elementValues elements).reverse
def Entries.toMembers : List (String × Item) → List (String × Value)
  | [] => []
  | (k, i) :: es => (k, i.toValue) :: Entries.toMembers es
def elementValues : List (List (String × Item)) → List Value
  | [] => []
  | e :: es => .table (Entries.toMembers e) :: elementValues es
end

end ArchivalQuery.Toml
