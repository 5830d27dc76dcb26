import ArchivalQuery.Depth
import ArchivalQuery.Json.Record
import ArchivalQuery.Node.Build

/-! # Reading query expressions

An expression is an object of operators; several of them are joined by a conjunction.  A step is an
expression with modifiers.  The first fault in the order of the text is the one reported.
-/
namespace ArchivalQuery

structure Step where
  node : Node
  depth : Depth := .default
deriving DecidableEq

namespace Expression

def asObject (op : Operator) : Json → Checked (List (String × Json))
  | .obj ms => .ok ms
  | v => malformed (.expected op.token .object v)

def asArray (op : Operator) : Json → Checked (List Json)
  | .arr xs => .ok xs
  | v => malformed (.expected op.token .array v)

def asString (op : Operator) : Json → Checked String
  | .str s => .ok s
  | v => malformed (.expected op.token .string v)

/-- The only member of an operand that tests one field. -/
def soleField (op : Operator) (v : Json) : Checked (String × Json) := do
  match ← asObject op v with
  | [p] => return p
  | ms => malformed (.oneField op ms.length)

def readExistence (op : Existence) (v : Json) : Checked Node := do
  Build.existence op (← asString op.operator v)

def readComparison (op : Comparison) (v : Json) : Checked Node := do
  let (name, operand) ← soleField op.operator v
  Build.comparison op name operand

def readContainment (op : Containment) (v : Json) : Checked Node := do
  let (name, operand) ← soleField op.operator v
  Build.containment op name (← asArray op.operator operand)

def readBound (b : Bounds) (p : String × Json) : Checked Bounds :=
  match Operator.ofToken? p.1 with
  | some .gt => .ok { b with gt := some p.2 }
  | some .gte => .ok { b with gte := some p.2 }
  | some .lt => .ok { b with lt := some p.2 }
  | some .lte => .ok { b with lte := some p.2 }
  | _ => malformed (.foreignPart .range p.1)

def readRange (v : Json) : Checked Node := do
  let (name, operand) ← soleField .range v
  Build.range name (← (← asObject .range operand).foldlM readBound {})

def readWildcard (v : Json) : Checked Node := do
  let (name, operand) ← soleField .wildcard v
  Build.wildcard name (← asString .wildcard operand)

def readRegex (v : Json) : Checked Node := do
  let (name, operand) ← soleField .regex v
  Build.regex name (← asString .regex operand)

def readTerm (v : Json) : Checked Node := do
  Build.term (← asObject .term v)

def readFullText (op : FullText) (v : Json) : Checked Node := do
  let (name, operand) ← soleField op.operator v
  Build.fullText op [name] (← asString op.operator operand)

/-- Notes one part of a search for similar documents: the fields or the text. -/
def readMoreLikePart (parts : Option (List String) × Option String) (p : String × Json) :
    Checked (Option (List String) × Option String) :=
  if p.1 = "$fields" then do
    let names ← (← asArray .moreLike p.2).mapM (asString .moreLike)
    return (some names, parts.2)
  else if p.1 = "$like" then do
    return (parts.1, some (← asString .moreLike p.2))
  else malformed (.foreignPart .moreLike p.1)

def readMoreLike (v : Json) : Checked Node := do
  match ← (← asObject .moreLike v).foldlM readMoreLikePart (none, none) with
  | (some names, some like) => Build.fullText .moreLike names like
  | _ => malformed .moreLikeParts

def readPath (v : Json) : Checked Node := do
  Build.path (← (← asArray .path v).mapM (asString .path))

/-- The connective of an operator, or how its leaf is read. -/
def leafOrConnective : Operator → Connective ⊕ (Json → Checked Node)
  | .and => .inl .and
  | .or => .inl .or
  | .not => .inl .not
  | .present => .inr (readExistence .present)
  | .missing => .inr (readExistence .missing)
  | .isNull => .inr (readExistence .isNull)
  | .within => .inr (readContainment .within)
  | .notWithin => .inr (readContainment .notWithin)
  | .size => .inr (readComparison .size)
  | .gt => .inr (readComparison .gt)
  | .gte => .inr (readComparison .gte)
  | .lt => .inr (readComparison .lt)
  | .lte => .inr (readComparison .lte)
  | .eq => .inr (readComparison .eq)
  | .ne => .inr (readComparison .ne)
  | .wildcard => .inr readWildcard
  | .regex => .inr readRegex
  | .range => .inr readRange
  | .term => .inr readTerm
  | .path => .inr readPath
  | .matching => .inr (readFullText .matching)
  | .leading => .inr (readFullText .leading)
  | .search => .inr (readFullText .search)
  | .moreLike => .inr readMoreLike

def operatorOf (token : String) : Checked Operator :=
  match Operator.ofToken? token with
  | some op => .ok op
  | none =>
    if token.toList.head? = some '$' then .error (.unknownOperator token)
    else malformed (.notAnOperator token)

/-- One tree stands for itself, several for their conjunction. -/
def conjunction : List Node → Checked Node
  | [n] => .ok n
  | ns => Build.boolean .and ns

def isModifier (key : String) : Bool := (StepModifier.ofToken? key).isSome

/-- The keys of an expression: at least one, and no modifier. -/
def checkKeys (ms : List (String × Json)) : Checked Unit :=
  if ms.isEmpty then malformed .expressionEmpty
  else match ms.find? (isModifier ·.1) with
    | some m => malformed (.nestedModifier m.1)
    | none => .ok ()

mutual
def read : Json → Checked Node
  | .obj ms => do
    checkKeys ms
    conjunction (← readOperators ms)
  | v => malformed (.expressionShape v)
def readOperators : List (String × Json) → Checked (List Node)
  | [] => .ok []
  | (token, v) :: ms => do
    let n ← readOperator token v
    let ns ← readOperators ms
    return n :: ns
def readOperator (token : String) (v : Json) : Checked Node := do
  let op ← operatorOf token
  match leafOrConnective op with
  | .inr readLeaf => readLeaf v
  | .inl c =>
    match v with
    | .arr xs => Build.boolean c (← readChildren xs)
    | v => malformed (.expected op.token .array v)
def readChildren : List Json → Checked (List Node)
  | [] => .ok []
  | v :: vs => do
    let n ← read v
    let ns ← readChildren vs
    return n :: ns
end

end Expression

namespace Step

def readDepth (m : StepModifier) (v : Json) : Checked Int32 :=
  match v.int32? with
  | some n => .ok n
  | none => malformed (.expected m.token .integer v)

/-- The depth of a step; it must not have two. -/
def readModifiers (index : Nat) (ms : List (String × Json)) : Checked Depth := do
  let depth ← match ms.lookup StepModifier.depth.token, ms.lookup StepModifier.exactDepth.token with
    | some _, some _ => .error (.depthConflict index)
    | some v, none => Depth.relative <$> readDepth .depth v
    | none, some v => Depth.exact <$> readDepth .exactDepth v
    | none, none => .ok .default
  depth.check
  return depth

def read (index : Nat) (v : Json) : Checked Step :=
  match v with
  | .obj ms => do
    let depth ← readModifiers index ms
    let operators := ms.filter (!Expression.isModifier ·.1)
    if operators.isEmpty then malformed (.stepEmpty index)
    let node ← Expression.conjunction (← Expression.readOperators operators)
    return { node, depth }
  | _ => malformed (.stepShape index)

end Step
end ArchivalQuery
