import ArchivalQuery.Node.Read
import ArchivalQuery.Proofs.Node.Building

/-! # The grammar of query expressions

Which values are expressions and steps, and the tree that each of them stands for.  The grammar says
nothing of the order in which a value is read, nor of how it is refused.
-/
namespace ArchivalQuery.Grammar
open ArchivalQuery.Field (Admitted)

def Named (op : Existence) (v : Json) (n : Node) : Prop :=
  ∃ name, v = .str name ∧ Admitted .query name ∧ n = .existence op name

/-- One field with a value that the comparison takes. -/
def Compared (op : Comparison) (v : Json) (n : Node) : Prop :=
  ∃ name w, v = .obj [(name, w)] ∧ Admitted .query name ∧ op.Takes w ∧ n = .comparison op name w

def Contained (op : Containment) (v : Json) (n : Node) : Prop :=
  ∃ name ws, v = .obj [(name, .arr ws)] ∧ Admitted .query name ∧ ws ≠ [] ∧
    (∀ w ∈ ws, w.isScalar) ∧ n = .containment op name ws

structure BoundsOf (ms : List (String × Json)) (b : Bounds) : Prop where
  keys : ∀ m ∈ ms, m.1 ∈ ["$gt", "$gte", "$lt", "$lte"]
  gt : b.gt = ms.lookup "$gt"
  gte : b.gte = ms.lookup "$gte"
  lt : b.lt = ms.lookup "$lt"
  lte : b.lte = ms.lookup "$lte"

theorem BoundsOf.unique {ms : List (String × Json)} {b c : Bounds} (hb : BoundsOf ms b)
    (hc : BoundsOf ms c) : b = c := by
  obtain ⟨-, hgt, hgte, hlt, hlte⟩ := hb
  rw [← hc.gt] at hgt
  rw [← hc.gte] at hgte
  rw [← hc.lt] at hlt
  rw [← hc.lte] at hlte
  cases b
  cases c
  simp_all

def Ranged (v : Json) (n : Node) : Prop :=
  ∃ name ms b, v = .obj [(name, .obj ms)] ∧ Admitted .query name ∧ BoundsOf ms b ∧ b.Proper ∧
    n = .range name b

def Matched (op : TextMatch) (v : Json) (n : Node) : Prop :=
  ∃ name text, v = .obj [(name, .str text)] ∧ Admitted .query name ∧
    n = .textMatch op [⟨name, .str text⟩]

def Terms (v : Json) (n : Node) : Prop :=
  ∃ ms, v = .obj ms ∧ ms ≠ [] ∧ (∀ m ∈ ms, m.2.isScalar ∧ Admitted .query m.1) ∧
    n = .textMatch .term (ms.map fun m => ⟨m.1, m.2⟩)

def Searched (op : FullText) (v : Json) (n : Node) : Prop :=
  ∃ name text, v = .obj [(name, .str text)] ∧ Admitted .query name ∧ n = .fullText op [name] text

/-- Some fields and a text that documents are similar to in them, in either order. -/
def SimilarTo (v : Json) (n : Node) : Prop :=
  ∃ ms names text, v = .obj ms ∧ ms.Perm [("$fields", .ofStrings names), ("$like", .str text)] ∧
    names ≠ [] ∧ (∀ f ∈ names, Admitted .query f) ∧ n = .fullText .moreLike names text

def Listed (v : Json) (n : Node) : Prop :=
  ∃ ids, v = .ofStrings ids ∧ ids ≠ [] ∧ n = .path ids

/-- The operands of the operators without subexpressions, and their trees. -/
def Operand : Operator → Json → Node → Prop
  | .present => Named .present
  | .missing => Named .missing
  | .isNull => Named .isNull
  | .within => Contained .within
  | .notWithin => Contained .notWithin
  | .size => Compared .size
  | .gt => Compared .gt
  | .gte => Compared .gte
  | .lt => Compared .lt
  | .lte => Compared .lte
  | .eq => Compared .eq
  | .ne => Compared .ne
  | .wildcard => Matched .wildcard
  | .regex => Matched .regex
  | .range => Ranged
  | .term => Terms
  | .path => Listed
  | .matching => Searched .matching
  | .leading => Searched .leading
  | .search => Searched .search
  | .moreLike => SimilarTo
  | .and | .or | .not => fun _ _ => False

def modifiers : List String := ["$depth", "$exactdepth"]

/-- The operators whose operands are arrays of expressions. -/
def connectives : List String := ["$and", "$or", "$not"]

def operatorTokens : List (String × Operator) :=
  [("$exists", .present), ("$missing", .missing), ("$isNull", .isNull),
    ("$and", .and), ("$or", .or), ("$not", .not), ("$in", .within), ("$nin", .notWithin),
    ("$size", .size), ("$gt", .gt), ("$gte", .gte), ("$lt", .lt), ("$lte", .lte), ("$eq", .eq),
    ("$ne", .ne), ("$wildcard", .wildcard), ("$range", .range), ("$term", .term),
    ("$regex", .regex), ("$path", .path), ("$match", .matching), ("$mlt", .moreLike),
    ("$prefix", .leading), ("$search", .search)]

def connectiveTokens : List (String × Connective) := [("$and", .and), ("$or", .or), ("$not", .not)]

theorem mem_operatorTokens_iff {token : String} {op : Operator} :
    (token, op) ∈ operatorTokens ↔ token = op.token := by
  have htokens : operatorTokens = Operator.all.map fun op => (op.token, op) := rfl
  have hall : op ∈ Operator.all := by cases op <;> decide
  rw [htokens, List.mem_map]
  constructor
  · rintro ⟨_, -, ⟨⟩⟩
    rfl
  · rintro rfl
    exact ⟨op, hall, rfl⟩

theorem mem_connectiveTokens_iff {token : String} {op : Connective} :
    (token, op) ∈ connectiveTokens ↔ token = op.operator.token := by
  cases op <;> simp [connectiveTokens, Connective.operator, Operator.token]

/-- One tree stands for itself, several stand for their conjunction. -/
inductive Joined : List Node → Node → Prop
  | one {n : Node} : Joined [n] n
  | several {m n : Node} {ns : List Node} : Joined (m :: n :: ns) (.boolean .and (m :: n :: ns))

mutual
/-- An expression is an object of operators without modifiers. -/
inductive Expression : Json → Node → Prop
  | intro {ms : List (String × Json)} {ns : List Node} {n : Node} (hne : ms ≠ [])
      (hms : ∀ m ∈ ms, m.1 ∉ modifiers) (hns : Operators ms ns) (hn : Joined ns n) :
      Expression (.obj ms) n
/-- Operators stand for their trees, in order. -/
inductive Operators : List (String × Json) → List Node → Prop
  | nil : Operators [] []
  | cons {token : String} {v : Json} {n : Node} {ms : List (String × Json)} {ns : List Node}
      (hn : Application token v n) (hns : Operators ms ns) : Operators ((token, v) :: ms) (n :: ns)
/-- An operator with its operand; that of a connective is an array of expressions. -/
inductive Application : String → Json → Node → Prop
  | operand {token : String} {op : Operator} {v : Json} {n : Node}
      (htoken : (token, op) ∈ operatorTokens) (h : Operand op v n) : Application token v n
  | connective {token : String} {op : Connective} {vs : List Json} {ns : List Node}
      (htoken : (token, op) ∈ connectiveTokens) (hne : vs ≠ []) (hns : Expressions vs ns) :
      Application token (.arr vs) (.boolean op ns)
inductive Expressions : List Json → List Node → Prop
  | nil : Expressions [] []
  | cons {v : Json} {n : Node} {vs : List Json} {ns : List Node} (hn : Expression v n)
      (hns : Expressions vs ns) : Expressions (v :: vs) (n :: ns)
end

/-- The depth of a step by its modifiers: at most one of them, and a value that names a scope. -/
inductive DepthOf (ms : List (String × Json)) : Depth → Prop
  | default (hd : "$depth" ∉ ms.map Prod.fst) (he : "$exactdepth" ∉ ms.map Prod.fst) :
      DepthOf ms (.relative 1)
  | relative {v : Json} {hops : Int32} (hv : ("$depth", v) ∈ ms)
      (he : "$exactdepth" ∉ ms.map Prod.fst) (hn : v.int? = some hops.toInt) (h0 : hops.toInt ≠ 0) :
      DepthOf ms (.relative hops)
  | exact {v : Json} {distance : Int32} (hv : ("$exactdepth", v) ∈ ms)
      (hd : "$depth" ∉ ms.map Prod.fst) (hn : v.int? = some distance.toInt)
      (h0 : 0 ≤ distance.toInt) : DepthOf ms (.exact distance)

inductive StepOf : Json → Step → Prop
  | intro {ms : List (String × Json)} {ns : List Node} {n : Node} {depth : Depth}
      (hdepth : DepthOf ms depth) (hns : Operators (ms.filter (·.1 ∉ modifiers)) ns)
      (hn : Joined ns n) : StepOf (.obj ms) ⟨n, depth⟩

end ArchivalQuery.Grammar
