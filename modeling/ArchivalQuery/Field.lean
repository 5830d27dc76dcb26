import ArchivalQuery.QueryError
import ArchivalQuery.Settings.Ancestry

/-! # Field names

Which names a request may use, and the names under which the fields are stored.
-/
namespace ArchivalQuery

inductive FieldPlace
  | query | projection | orderBy
deriving DecidableEq, Repr

namespace Field

/-- Whether a name is plain: it is not empty, starts with none of `$`, `#` and `.`, does not end in
a point and holds no NUL. -/
def isPlain (name : String) : Bool :=
  match name.toList with
  | [] => false
  | c :: cs =>
    c != '$' && c != '#' && c != '.' && (c :: cs).all (· != '\x00') && cs.getLast? != some '.'

/-- Admits plain names and reserved names; the name of all fields is for projections only. -/
def check (place : FieldPlace) (name : String) : Checked Unit :=
  if name.toList.head? = some '#' then
    match ReservedField.ofToken? name with
    | none => .error (.unknownField name)
    | some f =>
      if f.queryable || place = .projection then .ok () else malformed (.projectionOnly name)
  else if isPlain name then .ok () else malformed (.fieldName name)

/-- The stored name of a reserved field; all fields together have none. -/
def reservedName? (a : Ancestry) : ReservedField → Option String
  | .all => none
  | .id => some a.id
  | .unitUps => some a.parents
  | .allUnitUps => some a.ancestors
  | .min => some a.minDepth
  | .max => some a.maxDepth
  | .dua => some "_dua"
  | .nbUnits => some "_nbc"
  | .type => some "_type"
  | .objectGroup => some "_og"
  | .management => some "_mgt"

/-- The stored name of a field; names that are not reserved are stored as they are. -/
def storedName? (a : Ancestry) (name : String) : Option String :=
  match ReservedField.ofToken? name with
  | some f => reservedName? a f
  | none => some name

/-- The stored name of a field in an expression or a sort key. -/
def stored (a : Ancestry) (name : String) : String := (storedName? a name).getD name

end Field
end ArchivalQuery
