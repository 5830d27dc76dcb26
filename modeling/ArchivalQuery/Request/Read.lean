import ArchivalQuery.Request.Basic
import ArchivalQuery.Settings.Limits

/-! # Reading requests

The keys of a request are checked first, then its sections are read in a fixed order; inside a
section the order is that of the text.
-/
namespace ArchivalQuery.Request

def allowedKeys : RequestKind → List RequestKey
  | .select => [.roots, .query, .filter, .projection]
  | .insert | .update => [.roots, .query, .filter, .data]

def checkKey (kind : RequestKind) (key : String) : Checked Unit :=
  match RequestKey.ofToken? key with
  | some k => if k ∈ allowedKeys kind then .ok () else malformed (.foreignKey key kind)
  | none => malformed (.foreignKey key kind)

def readRoot : Json → Checked String
  | .str id => .ok id
  | v => malformed (.rootShape v)

def readRoots : Json → Checked (List String)
  | .arr xs => xs.mapM readRoot
  | _ => malformed .rootsShape

/-- The steps of a query; an object stands for its only step. -/
def readQuery (v : Json) : Checked (List Step) :=
  match v with
  | .arr xs => xs.zipIdx.mapM fun p => Step.read p.2 p.1
  | .obj _ => do return [← Step.read 0 v]
  | _ => malformed (.queryShape v)

/-- The members of a section; an empty array stands for an empty object. -/
def sectionMembers (word : RequestKey) : Json → Checked (List (String × Json))
  | .obj ms => .ok ms
  | .arr [] => .ok []
  | v => malformed (.sectionShape word v)

def readNatural (key : FilterKey) (shape : Shape) (v : Json) : Checked UInt64 :=
  match v.natural? with
  | some n => .ok n
  | none => malformed (.expected key.token shape v)

/-- A limit is positive and never above the greatest one. -/
def readLimit (limits : Limits) (v : Json) : Checked UInt64 := do
  let n ← readNatural .limit .positive v
  if n = 0 then malformed (.expected FilterKey.limit.token .positive v)
  return min n limits.defaultLimit

def readHint (v : Json) : Checked Hint :=
  match v.str?.bind Hint.ofToken? with
  | some h => .ok h
  | none => malformed (.unknownHint v)

def addHint (hints : List Hint) (h : Hint) : List Hint :=
  if h ∈ hints then hints else hints ++ [h]

def readHints : Json → Checked (List Hint)
  | .arr xs => do return (← xs.mapM readHint).foldl addHint []
  | _ => malformed .hintShape

def readOrderBy (p : String × Json) : Checked OrderBy := do
  Field.check .orderBy p.1
  match p.2.int? with
  | some 1 => return ⟨p.1, .ascending⟩
  | some (-1) => return ⟨p.1, .descending⟩
  | _ => malformed (.direction p.1 p.2)

def readOrder : Json → Checked (List OrderBy)
  | .obj ms => ms.mapM readOrderBy
  | _ => malformed .orderShape

def readFilterOption (limits : Limits) (f : FilterSection) (p : String × Json) :
    Checked FilterSection :=
  match FilterKey.ofToken? p.1 with
  | none => malformed (.foreignOption p.1 .filter)
  | some .offset => do return { f with offset := ← readNatural .offset .natural p.2 }
  | some .limit => do return { f with limit := ← readLimit limits p.2 }
  | some .hint => do return { f with hints := ← readHints p.2 }
  | some .orderBy => do return { f with orderBy := ← readOrder p.2 }

def defaultFilter (limits : Limits) : FilterSection := { limit := limits.defaultLimit }

def readFilter (limits : Limits) (v : Json) : Checked FilterSection := do
  (← sectionMembers .filter v).foldlM (readFilterOption limits) (defaultFilter limits)

def readProjectedField (p : String × Json) : Checked ProjectedField := do
  Field.check .projection p.1
  match p.2 with
  | .bool b => return ⟨p.1, b⟩
  | v =>
    match v.int? with
    | some 1 => return ⟨p.1, true⟩
    | some 0 => return ⟨p.1, false⟩
    | _ => malformed (.inclusion p.1 v)

def readProjectedFields : Json → Checked (List ProjectedField)
  | .obj ms => ms.mapM readProjectedField
  | _ => malformed .fieldsShape

def readUsage : Json → Checked String
  | .str s => .ok s
  | v => malformed (.expected ProjectionKey.usage.token .string v)

def readProjectionOption (q : Projection) (p : String × Json) : Checked Projection :=
  match ProjectionKey.ofToken? p.1 with
  | none => malformed (.foreignOption p.1 .projection)
  | some .fields => do return { q with fields := ← readProjectedFields p.2 }
  | some .usage => do return { q with usage := some (← readUsage p.2) }

def readProjection (v : Json) : Checked Projection := do
  (← sectionMembers .projection v).foldlM readProjectionOption {}

/-- The data of a request; those that write must have it. -/
def readData (kind : RequestKind) (v : Option Json) : Checked (Option Json) :=
  if kind.isWrite then
    match v with
    | some (.obj ms) => .ok (some (.obj ms))
    | some v => malformed (.sectionShape .data v)
    | none => malformed (.dataMissing kind)
  else .ok none

def readSection {α : Type} (ms : List (String × Json)) (key : RequestKey) (default : α)
    (read : Json → Checked α) : Checked α :=
  match ms.lookup key.token with
  | some v => read v
  | none => .ok default

def read (kind : RequestKind) (limits : Limits) : Json → Checked Request
  | .obj ms => do
    ms.forM fun m => checkKey kind m.1
    let roots ← readSection ms .roots [] readRoots
    let steps ← readSection ms .query [] readQuery
    let filter ← readSection ms .filter (defaultFilter limits) (readFilter limits)
    let projection ← readSection ms .projection {} readProjection
    let data ← readData kind (ms.lookup RequestKey.data.token)
    return { kind, roots, steps, filter, projection, data }
  | _ => malformed .notAnObject

end ArchivalQuery.Request
