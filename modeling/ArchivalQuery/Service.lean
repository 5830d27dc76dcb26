import ArchivalQuery.Envelope
import ArchivalQuery.Plan.Compile
import ArchivalQuery.Request.Entry

/-! # The metadata service

Six entry points run a request against a store: each makes a plan and hands it over once, or refuses
and hands nothing over.  What the store answers may depend on the plans it was given before.
-/
namespace ArchivalQuery

inductive StoreError
  | notFound (text : String)
  | alreadyExists (text : String)
  | backend (text : String)
deriving DecidableEq, Repr

def StoreError.message : StoreError → String
  | notFound text => "Not found: " ++ text
  | alreadyExists text => "Already exists: " ++ text
  | backend text => "Backend error: " ++ text

inductive ServiceError
  | refused (error : QueryError)
  | failed (error : StoreError)

namespace ServiceError

def message : ServiceError → String
  | refused e => e.message
  | failed e => "Execution failed: " ++ e.message

def category : ServiceError → Category
  | refused e => e.category
  | failed _ => .internal

end ServiceError

inductive Call
  | selectUnits (text : String)
  | selectUnitsById (text id : String)
  | selectObjectGroupById (text id : String)
  | updateUnitById (text id : String)
  | insertUnit (request : Json)
  | insertObjectGroup (request : Json)

namespace Call

def kind : Call → RequestKind
  | selectUnits _ | selectUnitsById _ _ | selectObjectGroupById _ _ => .select
  | updateUnitById _ _ => .update
  | insertUnit _ | insertObjectGroup _ => .insert

def collection : Call → Collection
  | selectObjectGroupById _ _ | insertObjectGroup _ => .objectGroups
  | _ => .units

/-- The identifier that the call pins the roots to. -/
def id? : Call → Option String
  | selectUnitsById _ id | selectObjectGroupById _ id | updateUnitById _ id => some id
  | _ => none

/-- The request of a call, as it came and as it is read. -/
def request (limits : Limits) (c : Call) : Checked (Json × Request) :=
  match c with
  | selectUnits text | selectUnitsById text _ | selectObjectGroupById text _
  | updateUnitById text _ => do
    let v ← Request.decode limits text
    return (v, ← Request.read c.kind limits v)
  | insertUnit v | insertObjectGroup v => do return (v, ← Request.ofValue c.kind limits v)

/-- The plan of a call; its context is the request as it came. -/
def plan (limits : Limits) (a : Ancestry) (c : Call) : Checked Plan := do
  let (context, r) ← c.request limits
  let p ← (r.pin c.id?).compile a c.collection
  return { p with context }

end Call

abbrev Store := Plan → Except StoreError Envelope

/-- What came of a call: the plan that the store was given, if any, and the answer. -/
structure Outcome where
  plan : Option Plan
  result : Except ServiceError Envelope

structure Service where
  limits : Limits
  ancestry : Ancestry

/-- Runs a call against a store that may have effects. -/
def Service.serve {m : Type → Type} [Monad m] (s : Service)
    (store : Plan → m (Except StoreError Envelope)) (c : Call) :
    m (Except ServiceError Envelope) :=
  match c.plan s.limits s.ancestry with
  | .error e => return .error (.refused e)
  | .ok p => return (← store p).mapError .failed

/-- A store that notes the plans it is given, and answers by those it was given before. -/
def recording (answer : List Plan → Store) (p : Plan) :
    StateM (List Plan) (Except StoreError Envelope) := do
  let given ← get
  set (given ++ [p])
  return answer given p

def Service.run (s : Service) (store : Store) (c : Call) : Outcome :=
  let o := (s.serve (recording fun _ => store) c).run []
  ⟨o.2.head?, o.1⟩

end ArchivalQuery
