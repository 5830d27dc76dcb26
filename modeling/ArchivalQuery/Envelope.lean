import ArchivalQuery.Plan.Basic

/-! # Result envelopes

The results of a plan, with their count, their page and the request they answer.
-/
namespace ArchivalQuery

structure Hits where
  /-- The number of matches before paging. -/
  total : UInt64
  offset : UInt64
  limit : UInt64
  /-- The number of results on the page. -/
  size : UInt64
deriving DecidableEq

structure Envelope where
  hits : Hits
  context : Json
  results : List Json
deriving DecidableEq

namespace Envelope

def ofResults (p : Plan) (context : Json) (total : UInt64) (results : List Json) : Envelope where
  hits := ⟨total, p.offset, p.limit, UInt64.ofNat results.length⟩
  context := context
  results := results

/-- The envelope that sends back the context of the plan. -/
def ofPlan (p : Plan) (total : UInt64) (results : List Json) : Envelope :=
  ofResults p p.context total results

def isEmpty (e : Envelope) : Bool := e.results.isEmpty

end Envelope
end ArchivalQuery
