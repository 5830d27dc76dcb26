/-! # Request limits

Bounds on the size and nesting of a request, and the number of results it may ask for.
-/
namespace ArchivalQuery

structure Limits where
  /-- Greatest size of a request in bytes. -/
  maxRequestSize : UInt64 := 1000000
  /-- Greatest nesting of the arrays and objects of a request. -/
  maxNestingDepth : UInt64 := 100
  /-- The result limit of a request that names none, and the greatest it may name. -/
  defaultLimit : UInt64 := 10000
deriving DecidableEq, Repr

inductive Limit
  | requestSize | nestingDepth | results
deriving DecidableEq, Repr

namespace Limit

def all : List Limit := [requestSize, nestingDepth, results]

def label : Limit → String
  | requestSize => "max_request_size"
  | nestingDepth => "max_nesting_depth"
  | results => "default_limit"

def envName : Limit → String
  | requestSize => "ARCHIVUM_MAX_REQUEST_SIZE"
  | nestingDepth => "ARCHIVUM_MAX_NESTING_DEPTH"
  | results => "ARCHIVUM_DEFAULT_LIMIT"

end Limit

namespace Limits

def get (l : Limits) : Limit → UInt64
  | .requestSize => l.maxRequestSize
  | .nestingDepth => l.maxNestingDepth
  | .results => l.defaultLimit

def set (l : Limits) (k : Limit) (n : UInt64) : Limits :=
  match k with
  | .requestSize => { l with maxRequestSize := n }
  | .nestingDepth => { l with maxNestingDepth := n }
  | .results => { l with defaultLimit := n }

@[simp] theorem get_set (l : Limits) (j k : Limit) (n : UInt64) :
    (l.set k n).get j = if j = k then n else l.get j := by
  cases j <;> cases k <;> rfl

end Limits
end ArchivalQuery
