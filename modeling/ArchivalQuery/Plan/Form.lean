import ArchivalQuery.Envelope
import ArchivalQuery.Request.Form

/-! # Plans and envelopes as JSON

Scopes and expansions are variants under tags of their own; a context of null is left out.
-/
namespace ArchivalQuery
open Json (record Draft)
open ArchivalQuery.Filter (DepthWindow)

namespace Scope

def toJson : Scope → Json
  | children => record [("scope", some (.str "children"))]
  | descendants hops =>
    record [("scope", some (.str "descendants")), ("hops", some (.ofUInt32 hops))]
  | ancestors hops => record [("scope", some (.str "ancestors")), ("hops", some (.ofUInt32 hops))]
  | exact depth => record [("scope", some (.str "exact")), ("depth", some (.ofUInt32 depth))]

def ofDraft? (d : Draft) : Option Scope := do
  let (tag, fields) ← d.variant? "scope"
  if tag = "children" then (fields.fields? []).map fun _ => children
  else if tag = "descendants" then
    match ← fields.fields? ["hops"] with
    | [some hops] => (hops.view? Json.uint32?).map descendants
    | _ => none
  else if tag = "ancestors" then
    match ← fields.fields? ["hops"] with
    | [some hops] => (hops.view? Json.uint32?).map ancestors
    | _ => none
  else if tag = "exact" then
    match ← fields.fields? ["depth"] with
    | [some depth] => (depth.view? Json.uint32?).map exact
    | _ => none
  else none

end Scope

namespace Expansion

def toJson : Expansion → Json
  | none => record [("expansion", some (.str "none"))]
  | descendants hops =>
    record [("expansion", some (.str "descendants")), ("hops", some (.ofUInt32 hops))]
  | ancestors hops =>
    record [("expansion", some (.str "ancestors")), ("hops", some (.ofUInt32 hops))]

def ofDraft? (d : Draft) : Option Expansion := do
  let (tag, fields) ← d.variant? "expansion"
  if tag = "none" then (fields.fields? []).map fun _ => none
  else if tag = "descendants" then
    match ← fields.fields? ["hops"] with
    | [some hops] => (hops.view? Json.uint32?).map descendants
    | _ => .none
  else if tag = "ancestors" then
    match ← fields.fields? ["hops"] with
    | [some hops] => (hops.view? Json.uint32?).map ancestors
    | _ => .none
  else .none

end Expansion

def Filter.DepthWindow.toJson (w : DepthWindow) : Json :=
  record [("min_field", some (.str w.minField)), ("max_field", some (.str w.maxField)),
    ("depth", some (.ofUInt32 w.depth))]

def Filter.DepthWindow.ofDraft? (d : Draft) : Option DepthWindow := do
  match ← d.fields? ["min_field", "max_field", "depth"] with
  | [some (.str minField), some (.str maxField), some depth] =>
    return ⟨minField, maxField, ← depth.view? Json.uint32?⟩
  | _ => none

def Binding.toJson (b : Binding) : Json :=
  record [("field", some (.str b.field)), ("depth_range", b.window.map DepthWindow.toJson)]

def Binding.ofDraft? (d : Draft) : Option Binding := do
  match ← d.fields? ["field", "depth_range"] with
  | [some (.str field), window] =>
    return ⟨field, ← Draft.optional? DepthWindow.ofDraft? window⟩
  | _ => none

def PlanStep.toJson (s : PlanStep) : Json :=
  record [("index", some (.ofNat s.index)), ("scope", some s.scope.toJson),
    ("expansion", some s.expansion.toJson), ("query", some s.query),
    ("binding", some s.binding.toJson)]

def PlanStep.ofDraft? (d : Draft) : Option PlanStep := do
  match ← d.fields? ["index", "scope", "expansion", "query", "binding"] with
  | [some index, some scope, some expansion, some query, some binding] =>
    return ⟨(← index.view? Json.natural?).toNat, ← Scope.ofDraft? scope,
      ← Expansion.ofDraft? expansion, ← query.value?, ← Binding.ofDraft? binding⟩
  | _ => none

def Collection.ofDraft? (d : Draft) : Option Collection := d.word? all token

namespace Plan

def toJson (p : Plan) : Json :=
  record [("kind", some (.str p.kind.token)), ("collection", some (.str p.collection.token)),
    ("roots", some (.ofStrings p.roots)), ("steps", some (.arr (p.steps.map PlanStep.toJson))),
    ("id_field", some (.str p.idField)), ("projection", some p.projection),
    ("usage", p.usage.map .str), ("sort", some p.sort), ("offset", some (.ofUInt64 p.offset)),
    ("limit", some (.ofUInt64 p.limit)), ("hints", some (Hint.listToJson p.hints)),
    ("data", p.data), ("context", if p.context = .null then none else some p.context)]

def ofDraft? (d : Draft) : Option Plan := do
  match ← d.fields? ["kind", "collection", "roots", "steps", "id_field", "projection", "usage",
    "sort", "offset", "limit", "hints", "data", "context"] with
  | [some kind, some collection, some roots, some steps, some (.str idField), some projection,
      usage, some sort, some offset, some limit, some hints, data, context] =>
    return {
      kind := ← RequestKind.ofDraft? kind
      collection := ← Collection.ofDraft? collection
      roots := ← roots.view? Json.strings?
      steps := ← steps.list? PlanStep.ofDraft?
      idField
      projection := ← projection.value?
      usage := ← Draft.optional? (Draft.view? Json.str?) usage
      sort := ← sort.value?
      offset := ← offset.view? Json.natural?
      limit := ← limit.view? Json.natural?
      hints := ← hints.list? Hint.ofDraft?
      data := ← Draft.optional? Draft.value? data
      context := ← (context.getD .null).value? }
  | _ => none

end Plan

def Hits.toJson (h : Hits) : Json :=
  record [("total", some (.ofUInt64 h.total)), ("offset", some (.ofUInt64 h.offset)),
    ("limit", some (.ofUInt64 h.limit)), ("size", some (.ofUInt64 h.size))]

def Hits.ofDraft? (d : Draft) : Option Hits := do
  match ← d.fields? ["total", "offset", "limit", "size"] with
  | [some total, some offset, some limit, some size] =>
    return ⟨← total.view? Json.natural?, ← offset.view? Json.natural?,
      ← limit.view? Json.natural?, ← size.view? Json.natural?⟩
  | _ => none

namespace Envelope

def toJson (e : Envelope) : Json :=
  record [("$hits", some e.hits.toJson), ("$context", some e.context),
    ("$results", some (.arr e.results))]

def ofDraft? (d : Draft) : Option Envelope := do
  match ← d.fields? ["$hits", "$context", "$results"] with
  | [some hits, some context, some results] =>
    return ⟨← Hits.ofDraft? hits, ← context.value?, ← results.view? Json.arr?⟩
  | _ => none

end Envelope
end ArchivalQuery
