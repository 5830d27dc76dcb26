import ArchivalQuery.Catalog
import ArchivalQuery.Json.Basic

/-! # Query trees

The tree of a query expression.  Its leaves test stored fields, full texts or identifiers, its inner
nodes join subtrees.  The type admits trees that no request can write, such as a connective without
subtrees; those are refused where a tree is compiled.
-/
namespace ArchivalQuery

inductive Comparison
  | eq | ne | gt | gte | lt | lte
  /-- Equality of the length of an array. -/
  | size
deriving DecidableEq, Repr

namespace Comparison

def all : List Comparison := [eq, ne, gt, gte, lt, lte, size]

def operator : Comparison → Operator
  | eq => .eq
  | ne => .ne
  | gt => .gt
  | gte => .gte
  | lt => .lt
  | lte => .lte
  | size => .size

end Comparison

inductive Existence
  | present | missing | isNull
deriving DecidableEq, Repr

namespace Existence

def all : List Existence := [present, missing, isNull]

def operator : Existence → Operator
  | present => .present
  | missing => .missing
  | isNull => .isNull

end Existence

inductive Containment
  | within | notWithin
deriving DecidableEq, Repr

namespace Containment

def all : List Containment := [within, notWithin]

def operator : Containment → Operator
  | within => .within
  | notWithin => .notWithin

end Containment

/-- Tests of the text of fields: one pattern on one field, or exact terms on several. -/
inductive TextMatch
  | wildcard | regex | term
deriving DecidableEq, Repr

namespace TextMatch

def all : List TextMatch := [wildcard, regex, term]

def operator : TextMatch → Operator
  | wildcard => .wildcard
  | regex => .regex
  | term => .term

end TextMatch

/-- The connectives; negation is that of the conjunction of its subtrees. -/
inductive Connective
  | and | or | not
deriving DecidableEq, Repr

namespace Connective

def all : List Connective := [and, or, not]

def operator : Connective → Operator
  | and => .and
  | or => .or
  | not => .not

end Connective

/-- Full-text searches, which the language knows and document filters do not. -/
inductive FullText
  | matching | moreLike | leading | search
deriving DecidableEq, Repr

namespace FullText

def all : List FullText := [matching, moreLike, leading, search]

def operator : FullText → Operator
  | matching => .matching
  | moreLike => .moreLike
  | leading => .leading
  | search => .search

end FullText

structure Bounds where
  gt : Option Json := none
  gte : Option Json := none
  lt : Option Json := none
  lte : Option Json := none
deriving DecidableEq

/-- The comparisons that bound a range, in their fixed order. -/
def Bounds.toList (b : Bounds) : List (Comparison × Json) :=
  [(Comparison.gt, b.gt), (.gte, b.gte), (.lt, b.lt), (.lte, b.lte)].filterMap fun p =>
    p.2.map (p.1, ·)

structure FieldValue where
  field : String
  value : Json
deriving DecidableEq

inductive Node
  | comparison (op : Comparison) (field : String) (value : Json)
  | existence (op : Existence) (field : String)
  | containment (op : Containment) (field : String) (values : List Json)
  | range (field : String) (bounds : Bounds)
  | textMatch (op : TextMatch) (pairs : List FieldValue)
  | boolean (op : Connective) (children : List Node)
  | fullText (op : FullText) (fields : List String) (value : String)
  | path (ids : List String)

instance : Inhabited Node := ⟨.path []⟩

namespace Node

def operator : Node → Operator
  | comparison op _ _ => op.operator
  | existence op _ => op.operator
  | containment op _ _ => op.operator
  | range _ _ => .range
  | textMatch op _ => op.operator
  | boolean op _ => op.operator
  | fullText op _ _ => op.operator
  | path _ => .path

mutual
def same : Node → Node → Bool
  | boolean op cs, boolean op' cs' => op = op' && sameAll cs cs'
  | comparison op f v, comparison op' f' v' => op = op' && f == f' && v = v'
  | existence op f, existence op' f' => op = op' && f == f'
  | containment op f vs, containment op' f' vs' => op = op' && f == f' && vs = vs'
  | range f b, range f' b' => f == f' && b = b'
  | textMatch op ps, textMatch op' ps' => op = op' && ps = ps'
  | fullText op fs v, fullText op' fs' v' => op = op' && fs = fs' && v == v'
  | path ids, path ids' => ids = ids'
  | _, _ => false
def sameAll : List Node → List Node → Bool
  | [], [] => true
  | a :: as, b :: bs => same a b && sameAll as bs
  | _, _ => false
end

mutual
theorem same_iff : (a b : Node) → (same a b = true ↔ a = b)
  | boolean op cs, b => by cases b <;> simp [same, sameAll_iff cs]
  | comparison op f v, b => by cases b <;> simp [same, and_assoc]
  | existence op f, b => by cases b <;> simp [same]
  | containment op f vs, b => by cases b <;> simp [same, and_assoc]
  | range f bs, b => by cases b <;> simp [same]
  | textMatch op ps, b => by cases b <;> simp [same]
  | fullText op fs v, b => by cases b <;> simp [same, and_assoc]
  | path ids, b => by cases b <;> simp [same]
theorem sameAll_iff : (as bs : List Node) → (sameAll as bs = true ↔ as = bs)
  | [], bs => by cases bs <;> simp [sameAll]
  | a :: as, bs => by cases bs <;> simp [sameAll, same_iff a, sameAll_iff as]
end

instance : DecidableEq Node := fun a b => decidable_of_iff _ (same_iff a b)

end Node
end ArchivalQuery
