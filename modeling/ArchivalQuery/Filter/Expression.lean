import ArchivalQuery.Field
import ArchivalQuery.Filter.Document
import ArchivalQuery.Node.Basic

/-! # Filters of query trees

The filter document of a tree.  Field names become stored names, the members of every document come
in a fixed order, and the first subtree without a filter decides the refusal.
-/
namespace ArchivalQuery.Node
open Json (single)

/-- The number by which the store knows the type of null. -/
def nullType : Nat := 10

/-- The document of a comparison; equality is written without an operator. -/
def comparisonFilter (field : String) (op : Comparison) (v : Json) : Json :=
  match op with
  | .eq => single field v
  | _ => single field (single op.operator.token v)

def existenceFilter (field : String) : Existence → Json
  | .present => single field (single "$exists" (.bool true))
  | .missing => single field (single "$exists" (.bool false))
  | .isNull => single field (single "$type" (.ofNat nullType))

def rangeFilter (field : String) (b : Bounds) : Json :=
  single field (.obj (b.toList.map fun p => (p.1.operator.token, p.2)))

def textFilter (a : Ancestry) (op : TextMatch) (pairs : List FieldValue) : Checked Json :=
  match op with
  | .term =>
    match pairs.map fun p => single (Field.stored a p.field) p.value with
    | [] => malformed (.noField .term)
    | [f] => .ok f
    | fs => .ok (single "$and" (.arr fs))
  | _ =>
    match pairs with
    | [p] =>
      .ok (single (Field.stored a p.field) (.obj [("$regex", p.value), ("$options", .str "")]))
    | _ => malformed (.oneFieldOnly op.operator)

/-- The document of a connective over at least one document. -/
def connect : Connective → List Json → Json
  | .and, fs => single "$and" (.arr fs)
  | .or, fs => single "$or" (.arr fs)
  | .not, [f] => single "$nor" (.arr [f])
  | .not, fs => single "$nor" (.arr [single "$and" (.arr fs)])

mutual
def filter (a : Ancestry) : Node → Checked Json
  | comparison op field v => .ok (comparisonFilter (Field.stored a field) op v)
  | existence op field => .ok (existenceFilter (Field.stored a field) op)
  | containment op field vs =>
    .ok (single (Field.stored a field) (single op.operator.token (.arr vs)))
  | range field b => .ok (rangeFilter (Field.stored a field) b)
  | textMatch op pairs => textFilter a op pairs
  | boolean op cs => do
    let fs ← filters a cs
    if fs.isEmpty then malformed (.noChild op.operator)
    return connect op fs
  | fullText op _ _ => .error (.unsupported op.operator)
  | path ids =>
    match Filter.memberOf? a.id ids with
    | some f => .ok f
    | none => malformed .noId
def filters (a : Ancestry) : List Node → Checked (List Json)
  | [] => .ok []
  | n :: ns => do
    let f ← filter a n
    let fs ← filters a ns
    return f :: fs
end

end ArchivalQuery.Node
