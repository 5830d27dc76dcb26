import ArchivalQuery.Json.Record
import ArchivalQuery.Node.Read

/-! # Query trees as JSON

Every node is a variant under the tag `kind`; a family of operators is named by the label of its
operator.  Reading such a form tests its shape alone, so trees that no request can write are read
too.
-/
namespace ArchivalQuery
open Json (record Draft)

def Depth.toJson : Depth → Json
  | relative n => .single "relative" (.ofInt32 n)
  | exact n => .single "exact" (.ofInt32 n)

def Depth.ofDraft? : Draft → Option Depth
  | .obj [(tag, d)] =>
    if tag = "relative" then (d.view? Json.int32?).map relative
    else if tag = "exact" then (d.view? Json.int32?).map exact
    else none
  | _ => none

def labelOf {α : Type} (operator : α → Operator) (op : α) : Json := .str (operator op).label

/-- The member of a family whose operator has the label of a part. -/
def familyOf? {α : Type} (all : List α) (operator : α → Operator) (d : Draft) : Option α :=
  d.innerLabel?.bind fun s => all.find? fun op => (operator op).label == s

def Bounds.toJson (b : Bounds) : Json :=
  record [("gt", b.gt), ("gte", b.gte), ("lt", b.lt), ("lte", b.lte)]

/-- A bound of null is no bound. -/
def Bounds.ofDraft? (d : Draft) : Option Bounds := do
  match ← d.fields? ["gt", "gte", "lt", "lte"] with
  | [gt, gte, lt, lte] =>
    return ⟨← Draft.optional? Draft.value? gt, ← Draft.optional? Draft.value? gte,
      ← Draft.optional? Draft.value? lt, ← Draft.optional? Draft.value? lte⟩
  | _ => none

def FieldValue.toJson (p : FieldValue) : Json :=
  record [("field", some (.str p.field)), ("value", some p.value)]

def FieldValue.ofDraft? (d : Draft) : Option FieldValue := do
  match ← d.fields? ["field", "value"] with
  | [some (.str field), some value] => return ⟨field, ← value.value?⟩
  | _ => none

namespace Node

inductive Kind
  | comparison | existence | containment | range | textMatch | boolean | fullText | path
deriving DecidableEq, Repr

namespace Kind

def all : List Kind :=
  [comparison, existence, containment, range, textMatch, boolean, fullText, path]

def label : Kind → String
  | comparison => "comparison"
  | existence => "existence"
  | containment => "containment"
  | range => "range"
  | textMatch => "string_match"
  | boolean => "boolean"
  | fullText => "full_text"
  | path => "path"

/-- A kind by its label, or by its place among the kinds. -/
def ofDraft? : Draft → Option Kind
  | .str s => all.find? fun k => k.label == s
  | .num (.int n _) => if 0 ≤ n then all[n.toNat]? else none
  | _ => none

end Kind

def form (kind : Kind) (fields : List (String × Json)) : Json :=
  .obj (("kind", .str kind.label) :: fields)

mutual
def toJson : Node → Json
  | comparison op field v =>
    form .comparison [("op", labelOf Comparison.operator op), ("field", .str field), ("value", v)]
  | existence op field =>
    form .existence [("op", labelOf Existence.operator op), ("field", .str field)]
  | containment op field vs =>
    form .containment
      [("op", labelOf Containment.operator op), ("field", .str field), ("values", .arr vs)]
  | range field b => form .range [("field", .str field), ("bounds", b.toJson)]
  | textMatch op ps =>
    form .textMatch
      [("op", labelOf TextMatch.operator op), ("pairs", .arr (ps.map FieldValue.toJson))]
  | boolean op cs =>
    form .boolean [("op", labelOf Connective.operator op), ("children", .arr (allToJson cs))]
  | fullText op fields v =>
    form .fullText
      [("op", labelOf FullText.operator op), ("fields", .ofStrings fields), ("value", .str v)]
  | path ids => form .path [("ids", .ofStrings ids)]
def allToJson : List Node → List Json
  | [] => []
  | n :: ns => toJson n :: allToJson ns
end

def leaf? (d : Draft) : Kind → Option Node
  | .comparison => do
    match ← d.fields? ["op", "field", "value"] with
    | [some op, some (.str field), some value] =>
      return comparison (← familyOf? Comparison.all Comparison.operator op) field (← value.value?)
    | _ => none
  | .existence => do
    match ← d.fields? ["op", "field"] with
    | [some op, some (.str field)] =>
      return existence (← familyOf? Existence.all Existence.operator op) field
    | _ => none
  | .containment => do
    match ← d.fields? ["op", "field", "values"] with
    | [some op, some (.str field), some vs] =>
      return containment (← familyOf? Containment.all Containment.operator op) field
        (← vs.view? Json.arr?)
    | _ => none
  | .range => do
    match ← d.fields? ["field", "bounds"] with
    | [some (.str field), some b] => return range field (← Bounds.ofDraft? b)
    | _ => none
  | .textMatch => do
    match ← d.fields? ["op", "pairs"] with
    | [some op, some ps] =>
      return textMatch (← familyOf? TextMatch.all TextMatch.operator op)
        (← ps.list? FieldValue.ofDraft?)
    | _ => none
  | .fullText => do
    match ← d.fields? ["op", "fields", "value"] with
    | [some op, some fields, some (.str value)] =>
      return fullText (← familyOf? FullText.all FullText.operator op)
        (← fields.view? Json.strings?) value
    | _ => none
  | .path => do
    match ← d.fields? ["ids"] with
    | [some ids] => return path (← ids.view? Json.strings?)
    | _ => none
  | .boolean => none

mutual
/-- The tree of a form inside a form, which may give its kind by place. -/
def inner? : Draft → Option Node
  | .obj ms => do
    let kind ← Kind.ofDraft? (← (← Draft.member? "kind" ms))
    if kind = .boolean then
      match ← Draft.fields? ["op", "children"] (.obj ms) with
      | [some op, some _] =>
        return boolean (← familyOf? Connective.all Connective.operator op) (← childrenOf? ms)
      | _ => none
    else leaf? (.obj ms) kind
  | .arr [tag, op, .arr cs] => do
    let kind ← Kind.ofDraft? tag
    if kind = .boolean then
      return boolean (← familyOf? Connective.all Connective.operator op) (← allInner? [] cs)
    else leaf? (.arr [op, .arr cs]) kind
  | .arr (tag :: ds) => do leaf? (.arr ds) (← Kind.ofDraft? tag)
  | _ => none
def childrenOf? : List (String × Draft) → Option (List Node)
  | [] => none
  | (k, d) :: ms =>
    if k = "children" then
      match d with
      | .arr cs => allInner? [] cs
      | _ => none
    else childrenOf? ms
/-- The trees of a list of forms, after those read before, the latest first. -/
def allInner? (read : List Node) : List Draft → Option (List Node)
  | [] => some read.reverse
  | d :: ds =>
    match inner? d with
    | some n => allInner? (n :: read) ds
    | none => none
end

/-- The tree of a form, which gives its kind by label. -/
def ofDraft? (d : Draft) : Option Node := do
  let _ ← d.variant? "kind"
  inner? d

end Node

def Step.toJson (s : Step) : Json :=
  record [("node", some s.node.toJson), ("depth", some s.depth.toJson)]

/-- A step without a depth has the default one. -/
def Step.ofDraft? (d : Draft) : Option Step := do
  match ← d.fields? ["node", "depth"] with
  | [some node, some depth] => return ⟨← Node.ofDraft? node, ← Depth.ofDraft? depth⟩
  | [some node, none] => return ⟨← Node.ofDraft? node, .default⟩
  | _ => none

end ArchivalQuery
