import ArchivalQuery.Catalog
import ArchivalQuery.Json.Writer

/-! # Refusals of a request

Why a request is refused, as causes; the wording is a function of the cause.  Values inside a
message are in their compact form, names stand as they are.
-/
namespace ArchivalQuery

inductive Shape
  | scalar | natural | positive | integer | object | array | string
deriving DecidableEq, Repr

def Shape.phrase : Shape → String
  | scalar => "a scalar value"
  | natural => "a non-negative integer"
  | positive => "a positive integer"
  | integer => "an integer"
  | object => "an object"
  | array => "an array"
  | string => "a string"

inductive Fault
  | empty
  | invalidJson
  | notAnObject
  /-- A key that the kind of request does not have. -/
  | foreignKey (key : String) (kind : RequestKind)
  /-- A key that an option section does not have. -/
  | foreignOption (key : String) (word : RequestKey)
  | sectionShape (word : RequestKey) (got : Json)
  | rootsShape
  | rootShape (got : Json)
  | queryShape (got : Json)
  | dataMissing (kind : RequestKind)
  | hintShape
  | unknownHint (got : Json)
  | orderShape
  | direction (field : String) (got : Json)
  | fieldsShape
  | inclusion (field : String) (got : Json)
  | stepShape (index : Nat)
  | stepEmpty (index : Nat)
  | expressionShape (got : Json)
  | expressionEmpty
  /-- A step modifier inside an expression. -/
  | nestedModifier (key : String)
  | notAnOperator (key : String)
  /-- The operand or the option of a token does not have the shape it must have. -/
  | expected (token : String) (shape : Shape) (got : Json)
  | oneField (op : Operator) (count : Nat)
  | oneFieldOnly (op : Operator)
  | noField (op : Operator)
  | noValue (op : Operator)
  | noChild (op : Operator)
  | noId
  | foreignPart (op : Operator) (key : String)
  | moreLikeParts
  | noBound
  | lowerBounds
  | upperBounds
  | fieldName (name : String)
  | projectionOnly (name : String)
  | zeroDepth
  | negativeDepth (depth : Int)

namespace Fault

def message : Fault → String
  | empty => "request is empty"
  | invalidJson => "invalid JSON"
  | notAnObject => "request must be a JSON object"
  | foreignKey key kind => "'" ++ key ++ "' is not allowed in a " ++ kind.token ++ " request"
  | foreignOption key word => "'" ++ key ++ "' is not allowed in " ++ word.token
  | sectionShape word got => word.token ++ " must be an object, got " ++ got.text
  | rootsShape => "$roots must be an array of ids"
  | rootShape got => "$roots entries must be strings, got " ++ got.text
  | queryShape got => "$query must be an array or an object, got " ++ got.text
  | dataMissing kind => "$data is required in a " ++ kind.token ++ " request"
  | hintShape => "$hint must be an array of hint names"
  | unknownHint got => "unknown hint " ++ got.text
  | orderShape => "$orderby must be an object"
  | direction field got => "$orderby expects 1 or -1 for '" ++ field ++ "', got " ++ got.text
  | fieldsShape => "$fields must be an object"
  | inclusion field got => "$fields expects 0 or 1 for '" ++ field ++ "', got " ++ got.text
  | stepShape index => "step " ++ index.repr ++ " must be an object"
  | stepEmpty index => "step " ++ index.repr ++ " has no query operator"
  | expressionShape got => "sub-query must be an object, got " ++ got.text
  | expressionEmpty => "sub-query has no operator"
  | nestedModifier key => key ++ " is only valid at step level"
  | notAnOperator key => "expected an operator, found '" ++ key ++ "'"
  | expected token shape got => token ++ " expects " ++ shape.phrase ++ ", got " ++ got.text
  | oneField op count => op.token ++ " expects exactly one field, got " ++ count.repr
  | oneFieldOnly op => op.token ++ " expects exactly one field"
  | noField op => op.token ++ " expects at least one field"
  | noValue op => op.token ++ " expects a non-empty array"
  | noChild op => op.token ++ " expects at least one sub-query"
  | noId => "$path expects at least one id"
  | foreignPart op key => op.token ++ " does not accept '" ++ key ++ "'"
  | moreLikeParts => "$mlt expects $fields and $like"
  | noBound => "$range expects at least one bound"
  | lowerBounds => "$range cannot combine $gt and $gte"
  | upperBounds => "$range cannot combine $lt and $lte"
  | fieldName name => "invalid field name '" ++ name ++ "'"
  | projectionOnly name => name ++ " is only valid in $projection"
  | zeroDepth => "$depth cannot be 0"
  | negativeDepth depth =>
    "$exactdepth cannot be negative, got " ++ String.ofList (Decimal.integer depth)

end Fault

inductive Excess
  | bytes (count limit : Nat)
  | nesting (depth limit : Nat)
deriving DecidableEq, Repr

def Excess.message : Excess → String
  | bytes count limit => "request is " ++ count.repr ++ " bytes (max " ++ limit.repr ++ ")"
  | nesting depth limit =>
    "request nesting depth is " ++ depth.repr ++ " (max " ++ limit.repr ++ ")"

inductive QueryError
  | tooLarge (excess : Excess)
  | malformed (fault : Fault)
  | unsupported (op : Operator)
  | unknownOperator (token : String)
  | unknownField (name : String)
  | depthConflict (step : Nat)

/-- How a refusal is reported to the caller. -/
inductive Category
  | payloadTooLarge | badRequest | internal
deriving DecidableEq, Repr

def Category.label : Category → String
  | payloadTooLarge => "PayloadTooLarge"
  | badRequest => "BadRequest"
  | internal => "Internal"

namespace QueryError

def message : QueryError → String
  | tooLarge excess => "Request exceeds size limits: " ++ excess.message
  | malformed fault => "Malformed request: " ++ fault.message
  | unsupported op => "Operator '" ++ op.token ++ "' is not supported by this backend"
  | unknownOperator token => "Unknown operator: " ++ token
  | unknownField name => "Unknown field: " ++ name
  | depthConflict step => "Step " ++ step.repr ++ " sets both $depth and $exactdepth"

/-- Only the two limits make a request too large. -/
def category : QueryError → Category
  | tooLarge _ => .payloadTooLarge
  | _ => .badRequest

end QueryError

abbrev Checked (α : Type) := Except QueryError α

def malformed {α : Type} (fault : Fault) : Checked α := .error (.malformed fault)

end ArchivalQuery
