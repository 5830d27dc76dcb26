import ArchivalQuery.Field
import ArchivalQuery.Node.Basic

/-! # Building query trees

One function for each kind of node.  Each refuses what a request could not say, so a tree built here
is one that a request can write.
-/
namespace ArchivalQuery.Build

def queryField (name : String) : Checked String := do
  Field.check .query name
  return name

/-- Admits strings, numbers and booleans. -/
def checkScalar (token : String) (v : Json) : Checked Unit :=
  if v.isScalar then .ok () else malformed (.expected token .scalar v)

/-- Admits a natural for a length and a scalar for the other comparisons. -/
def checkOperand (op : Comparison) (v : Json) : Checked Unit :=
  match op with
  | .size =>
    if v.natural?.isSome then .ok () else malformed (.expected op.operator.token .natural v)
  | _ => checkScalar op.operator.token v

def comparison (op : Comparison) (name : String) (v : Json) : Checked Node := do
  checkOperand op v
  return .comparison op (← queryField name) v

def size (name : String) (length : UInt64) : Checked Node :=
  comparison .size name (.ofUInt64 length)

def existence (op : Existence) (name : String) : Checked Node := do
  return .existence op (← queryField name)

def containment (op : Containment) (name : String) (vs : List Json) : Checked Node := do
  if vs.isEmpty then malformed (.noValue op.operator)
  vs.forM (checkScalar op.operator.token)
  return .containment op (← queryField name) vs

/-- At least one bound, and not two on the same side. -/
def range (name : String) (b : Bounds) : Checked Node := do
  if b.toList.isEmpty then malformed .noBound
  if b.gt.isSome && b.gte.isSome then malformed .lowerBounds
  if b.lt.isSome && b.lte.isSome then malformed .upperBounds
  b.toList.forM fun p => checkScalar Operator.range.token p.2
  return .range (← queryField name) b

def wildcard (name pattern : String) : Checked Node := do
  return .textMatch .wildcard [⟨← queryField name, .str pattern⟩]

def regex (name pattern : String) : Checked Node := do
  return .textMatch .regex [⟨← queryField name, .str pattern⟩]

def termPair (p : String × Json) : Checked FieldValue := do
  checkScalar Operator.term.token p.2
  return ⟨← queryField p.1, p.2⟩

/-- Exact values of one or more fields, all of which have to match. -/
def term (pairs : List (String × Json)) : Checked Node := do
  let ps ← pairs.mapM termPair
  if ps.isEmpty then malformed (.noField .term)
  return .textMatch .term ps

def boolean (op : Connective) (children : List Node) : Checked Node :=
  if children.isEmpty then malformed (.noChild op.operator) else .ok (.boolean op children)

def fullText (op : FullText) (names : List String) (value : String) : Checked Node := do
  if names.isEmpty then malformed (.noField op.operator)
  return .fullText op (← names.mapM queryField) value

def path (ids : List String) : Checked Node :=
  if ids.isEmpty then malformed .noId else .ok (.path ids)

end ArchivalQuery.Build
