import ArchivalQuery.Node.Form
import ArchivalQuery.Request.Basic

/-! # Requests as JSON

The record of a request.  Fields that are absent are left out.
-/
namespace ArchivalQuery
open Json (record Draft)

def RequestKind.ofDraft? (d : Draft) : Option RequestKind := d.word? all token

def OrderBy.toJson (k : OrderBy) : Json :=
  record [("field", some (.str k.field)), ("direction", some (.str k.direction.label))]

def OrderBy.ofDraft? (d : Draft) : Option OrderBy := do
  match ← d.fields? ["field", "direction"] with
  | [some (.str field), some direction] =>
    return ⟨field, ← direction.word? Direction.all Direction.label⟩
  | _ => none

def Hint.ofDraft? (d : Draft) : Option Hint := d.word? all token

def Hint.listToJson (hints : List Hint) : Json := .ofStrings (hints.map token)

def FilterSection.toJson (f : FilterSection) : Json :=
  record [("offset", some (.ofUInt64 f.offset)), ("limit", some (.ofUInt64 f.limit)),
    ("hints", some (Hint.listToJson f.hints)),
    ("order_by", some (.arr (f.orderBy.map OrderBy.toJson)))]

def FilterSection.ofDraft? (d : Draft) : Option FilterSection := do
  match ← d.fields? ["offset", "limit", "hints", "order_by"] with
  | [some offset, some limit, some hints, some orderBy] =>
    return ⟨← offset.view? Json.natural?, ← limit.view? Json.natural?,
      ← hints.list? Hint.ofDraft?, ← orderBy.list? OrderBy.ofDraft?⟩
  | _ => none

def ProjectedField.toJson (f : ProjectedField) : Json :=
  record [("field", some (.str f.field)), ("include", some (.bool f.included))]

def ProjectedField.ofDraft? (d : Draft) : Option ProjectedField := do
  match ← d.fields? ["field", "include"] with
  | [some (.str field), some (.bool included)] => return ⟨field, included⟩
  | _ => none

def Projection.toJson (p : Projection) : Json :=
  record [("fields", some (.arr (p.fields.map ProjectedField.toJson))), ("usage", p.usage.map .str)]

def Projection.ofDraft? (d : Draft) : Option Projection := do
  match ← d.fields? ["fields", "usage"] with
  | [some fields, usage] =>
    return ⟨← fields.list? ProjectedField.ofDraft?,
      ← Draft.optional? (Draft.view? Json.str?) usage⟩
  | _ => none

namespace Request

def toJson (r : Request) : Json :=
  record [("kind", some (.str r.kind.token)), ("roots", some (.ofStrings r.roots)),
    ("steps", some (.arr (r.steps.map Step.toJson))), ("filter", some r.filter.toJson),
    ("projection", some r.projection.toJson), ("data", r.data)]

def ofDraft? (d : Draft) : Option Request := do
  match ← d.fields? ["kind", "roots", "steps", "filter", "projection", "data"] with
  | [some kind, some roots, some steps, some filter, some projection, data] =>
    return ⟨← RequestKind.ofDraft? kind, ← roots.view? Json.strings?,
      ← steps.list? Step.ofDraft?, ← FilterSection.ofDraft? filter,
      ← Projection.ofDraft? projection, ← Draft.optional? Draft.value? data⟩
  | _ => none

end Request
end ArchivalQuery
