/-! # The words of the query language

Request kinds, collections, operators, request keys, step modifiers, the keys of the two option
sections, hints and reserved field names, each with its token.  Within one family no two words share
a token.
-/
namespace ArchivalQuery

/-- The first word with a token. -/
def wordOfToken? {α : Type} (words : List α) (token : α → String) (t : String) : Option α :=
  words.find? fun w => token w == t

inductive RequestKind
  | select | insert | update
deriving DecidableEq, Repr

namespace RequestKind

def all : List RequestKind := [select, insert, update]

def token : RequestKind → String
  | select => "select"
  | insert => "insert"
  | update => "update"

def ofToken? (t : String) : Option RequestKind := wordOfToken? all token t

@[simp] theorem ofToken?_token (k : RequestKind) : ofToken? k.token = some k := by cases k <;> rfl

def isWrite : RequestKind → Bool
  | select => false
  | insert | update => true

end RequestKind

inductive Collection
  | units | objectGroups
deriving DecidableEq, Repr

namespace Collection

def all : List Collection := [units, objectGroups]

def token : Collection → String
  | units => "units"
  | objectGroups => "objectgroups"

def ofToken? (t : String) : Option Collection := wordOfToken? all token t

@[simp] theorem ofToken?_token (c : Collection) : ofToken? c.token = some c := by cases c <;> rfl

end Collection

inductive Operator
  | present | missing | isNull
  | and | or | not
  | within | notWithin
  | size
  | gt | gte | lt | lte | eq | ne
  | wildcard | range | term | regex
  | path
  | matching | moreLike | leading | search
deriving DecidableEq, Repr

namespace Operator

def all : List Operator :=
  [present, missing, isNull, and, or, not, within, notWithin, size, gt, gte, lt, lte, eq, ne,
    wildcard, range, term, regex, path, matching, moreLike, leading, search]

/-- The name of an operator inside a tree, where tokens have no dollar. -/
def label : Operator → String
  | present => "exists"
  | missing => "missing"
  | isNull => "is_null"
  | and => "and"
  | or => "or"
  | not => "not"
  | within => "in"
  | notWithin => "nin"
  | size => "size"
  | gt => "gt"
  | gte => "gte"
  | lt => "lt"
  | lte => "lte"
  | eq => "eq"
  | ne => "ne"
  | wildcard => "wildcard"
  | range => "range"
  | term => "term"
  | regex => "regex"
  | path => "path"
  | matching => "match"
  | moreLike => "mlt"
  | leading => "prefix"
  | search => "search"

def token : Operator → String
  | present => "$exists"
  | missing => "$missing"
  | isNull => "$isNull"
  | and => "$and"
  | or => "$or"
  | not => "$not"
  | within => "$in"
  | notWithin => "$nin"
  | size => "$size"
  | gt => "$gt"
  | gte => "$gte"
  | lt => "$lt"
  | lte => "$lte"
  | eq => "$eq"
  | ne => "$ne"
  | wildcard => "$wildcard"
  | range => "$range"
  | term => "$term"
  | regex => "$regex"
  | path => "$path"
  | matching => "$match"
  | moreLike => "$mlt"
  | leading => "$prefix"
  | search => "$search"

def ofToken? (t : String) : Option Operator := wordOfToken? all token t

@[simp] theorem ofToken?_token (op : Operator) : ofToken? op.token = some op := by
  cases op <;> rfl

end Operator

inductive RequestKey
  | roots | query | filter | projection | data
deriving DecidableEq, Repr

namespace RequestKey

def all : List RequestKey := [roots, query, filter, projection, data]

def token : RequestKey → String
  | roots => "$roots"
  | query => "$query"
  | filter => "$filter"
  | projection => "$projection"
  | data => "$data"

def ofToken? (t : String) : Option RequestKey := wordOfToken? all token t

@[simp] theorem ofToken?_token (k : RequestKey) : ofToken? k.token = some k := by cases k <;> rfl

end RequestKey

inductive StepModifier
  | depth | exactDepth
deriving DecidableEq, Repr

namespace StepModifier

def all : List StepModifier := [depth, exactDepth]

def token : StepModifier → String
  | depth => "$depth"
  | exactDepth => "$exactdepth"

def ofToken? (t : String) : Option StepModifier := wordOfToken? all token t

@[simp] theorem ofToken?_token (m : StepModifier) : ofToken? m.token = some m := by
  cases m <;> rfl

end StepModifier

inductive FilterKey
  | offset | limit | hint | orderBy
deriving DecidableEq, Repr

namespace FilterKey

def all : List FilterKey := [offset, limit, hint, orderBy]

def token : FilterKey → String
  | offset => "$offset"
  | limit => "$limit"
  | hint => "$hint"
  | orderBy => "$orderby"

def ofToken? (t : String) : Option FilterKey := wordOfToken? all token t

@[simp] theorem ofToken?_token (k : FilterKey) : ofToken? k.token = some k := by cases k <;> rfl

end FilterKey

inductive ProjectionKey
  | fields | usage
deriving DecidableEq, Repr

namespace ProjectionKey

def all : List ProjectionKey := [fields, usage]

def token : ProjectionKey → String
  | fields => "$fields"
  | usage => "$usage"

def ofToken? (t : String) : Option ProjectionKey := wordOfToken? all token t

@[simp] theorem ofToken?_token (k : ProjectionKey) : ofToken? k.token = some k := by
  cases k <;> rfl

end ProjectionKey

inductive Hint
  | cache | noCache | units | objectGroups
deriving DecidableEq, Repr

namespace Hint

def all : List Hint := [cache, noCache, units, objectGroups]

def token : Hint → String
  | cache => "cache"
  | noCache => "nocache"
  | units => "units"
  | objectGroups => "objectgroups"

def ofToken? (t : String) : Option Hint := wordOfToken? all token t

@[simp] theorem ofToken?_token (h : Hint) : ofToken? h.token = some h := by cases h <;> rfl

end Hint

/-- The field names that the system keeps for itself. -/
inductive ReservedField
  | id | all | dua | unitUps | allUnitUps | min | max | nbUnits | type | objectGroup | management
deriving DecidableEq, Repr

namespace ReservedField

def words : List ReservedField :=
  [id, all, dua, unitUps, allUnitUps, min, max, nbUnits, type, objectGroup, management]

def token : ReservedField → String
  | id => "#id"
  | all => "#all"
  | dua => "#dua"
  | unitUps => "#unitups"
  | allUnitUps => "#allunitups"
  | min => "#min"
  | max => "#max"
  | nbUnits => "#nbunits"
  | type => "#type"
  | objectGroup => "#object"
  | management => "#management"

def ofToken? (t : String) : Option ReservedField := wordOfToken? words token t

@[simp] theorem ofToken?_token (f : ReservedField) : ofToken? f.token = some f := by
  cases f <;> rfl

/-- Whether the name may stand in an expression; the name of all fields may not. -/
def queryable : ReservedField → Bool
  | all => false
  | _ => true

end ReservedField
end ArchivalQuery
