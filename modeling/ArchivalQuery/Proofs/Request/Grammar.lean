import ArchivalQuery.Proofs.Json.Members
import ArchivalQuery.Proofs.Node.Grammar
import ArchivalQuery.Request.Basic
import ArchivalQuery.Settings.Limits

/-! # The grammar of requests

Which values are requests of a kind, and the request that each of them stands for.  A section that
is left out has its default.
-/
namespace ArchivalQuery.Grammar
open ArchivalQuery.Field (Admitted)
open Json (Gives)

def requestKeys : RequestKind → List String
  | .select => ["$roots", "$query", "$filter", "$projection"]
  | .insert => ["$roots", "$query", "$filter", "$data"]
  | .update => ["$roots", "$query", "$filter", "$data"]

inductive QueryOf : Json → List Step → Prop
  | step {v : Json} {s : Step} (hs : StepOf v s) : QueryOf v [s]
  | steps {vs : List Json} {ss : List Step} (hss : List.Forall₂ StepOf vs ss) :
      QueryOf (.arr vs) ss

/-- An option section is an object, or an empty array in place of an empty object. -/
inductive SectionOf : Json → List (String × Json) → Prop
  | object {ms : List (String × Json)} : SectionOf (.obj ms) ms
  | empty : SectionOf (.arr []) []

def OffsetOf (v : Json) (n : UInt64) : Prop := v.int? = some (n.toNat : Int)

/-- A positive limit, capped by the greatest one. -/
def LimitOf (limits : Limits) (v : Json) (n : UInt64) : Prop :=
  ∃ k : Nat, v.int? = some (k : Int) ∧ 0 < k ∧ n.toNat = min k limits.defaultLimit.toNat

def hintTokens : List (String × Hint) :=
  [("cache", .cache), ("nocache", .noCache), ("units", .units), ("objectgroups", .objectGroups)]

theorem mem_hintTokens_iff {token : String} {h : Hint} :
    (token, h) ∈ hintTokens ↔ token = h.token := by
  cases h <;> simp [hintTokens, Hint.token]

/-- Hints by their tokens; of equal ones the first counts. -/
def HintsOf (v : Json) (hs : List Hint) : Prop :=
  ∃ tokens words, v = .ofStrings tokens ∧
    List.Forall₂ (fun token word => (token, word) ∈ hintTokens) tokens words ∧
    hs = words.eraseDups

inductive SortKeyOf : String × Json → OrderBy → Prop
  | ascending {name : String} {v : Json} (hf : Admitted .orderBy name) (hv : v.int? = some 1) :
      SortKeyOf (name, v) ⟨name, .ascending⟩
  | descending {name : String} {v : Json} (hf : Admitted .orderBy name)
      (hv : v.int? = some (-1)) : SortKeyOf (name, v) ⟨name, .descending⟩

def SortOf (v : Json) (keys : List OrderBy) : Prop :=
  ∃ ms, v = .obj ms ∧ List.Forall₂ SortKeyOf ms keys

def noFilter (limits : Limits) : FilterSection := { limit := limits.defaultLimit }

structure OptionsOf (limits : Limits) (ms : List (String × Json)) (f : FilterSection) : Prop where
  keys : ∀ m ∈ ms, m.1 ∈ ["$offset", "$limit", "$hint", "$orderby"]
  offset : Gives ms "$offset" OffsetOf 0 f.offset
  limit : Gives ms "$limit" (LimitOf limits) limits.defaultLimit f.limit
  hints : Gives ms "$hint" HintsOf [] f.hints
  orderBy : Gives ms "$orderby" SortOf [] f.orderBy

def FilterOf (limits : Limits) (v : Json) (f : FilterSection) : Prop :=
  ∃ ms, SectionOf v ms ∧ OptionsOf limits ms f

inductive ProjectedOf : String × Json → ProjectedField → Prop
  | bool {name : String} {b : Bool} (hf : Admitted .projection name) :
      ProjectedOf (name, .bool b) ⟨name, b⟩
  | one {name : String} {v : Json} (hf : Admitted .projection name) (hv : v.int? = some 1) :
      ProjectedOf (name, v) ⟨name, true⟩
  | zero {name : String} {v : Json} (hf : Admitted .projection name) (hv : v.int? = some 0) :
      ProjectedOf (name, v) ⟨name, false⟩

def FieldsOf (v : Json) (fields : List ProjectedField) : Prop :=
  ∃ ms, v = .obj ms ∧ List.Forall₂ ProjectedOf ms fields

structure ProjectionParts (ms : List (String × Json)) (p : Projection) : Prop where
  keys : ∀ m ∈ ms, m.1 ∈ ["$fields", "$usage"]
  fields : Gives ms "$fields" FieldsOf [] p.fields
  usage : Gives ms "$usage" (fun v u => ∃ text, v = .str text ∧ u = some text) none p.usage

def ProjectionOf (v : Json) (p : Projection) : Prop := ∃ ms, SectionOf v ms ∧ ProjectionParts ms p

/-- Requests that write carry an object, the others nothing. -/
inductive DataOf (ms : List (String × Json)) : RequestKind → Option Json → Prop
  | select : DataOf ms .select none
  | write {kind : RequestKind} {ds : List (String × Json)} (hkind : kind ≠ .select)
      (hds : ("$data", .obj ds) ∈ ms) : DataOf ms kind (some (.obj ds))

structure RequestOf (kind : RequestKind) (limits : Limits) (ms : List (String × Json))
    (r : Request) : Prop where
  keys : ∀ m ∈ ms, m.1 ∈ requestKeys kind
  kind_eq : r.kind = kind
  roots : Gives ms "$roots" (fun v ids => v = .ofStrings ids) [] r.roots
  steps : Gives ms "$query" QueryOf [] r.steps
  filter : Gives ms "$filter" (FilterOf limits) (noFilter limits) r.filter
  projection : Gives ms "$projection" ProjectionOf {} r.projection
  data : DataOf ms kind r.data

end ArchivalQuery.Grammar
