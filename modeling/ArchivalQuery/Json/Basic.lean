import ArchivalQuery.Decimal.Binary64

/-! # JSON values

Objects keep the order of their members.  Numbers are either integers of the signed or unsigned
64-bit words, which stay exact, or finite binary64 numbers; the two kinds are never equal.
-/
namespace ArchivalQuery
open Decimal

/-- The integers that a JSON number keeps exact. -/
def Json.Exact (n : Int) : Prop := -0x8000000000000000 ≤ n ∧ n < 0x10000000000000000

instance (n : Int) : Decidable (Json.Exact n) := inferInstanceAs (Decidable (_ ∧ _))

inductive Json.Number
  | int (value : Int) (exact : Json.Exact value)
  | float (value : Binary64)
deriving DecidableEq

inductive Json
  | null
  | bool (value : Bool)
  | num (value : Json.Number)
  | str (text : String)
  | arr (items : List Json)
  | obj (members : List (String × Json))

instance : Inhabited Json := ⟨.null⟩

namespace Json

mutual
/-- Whether two values are the same, members in the same order. -/
def same : Json → Json → Bool
  | null, null => true
  | bool a, bool b => a == b
  | num a, num b => a = b
  | str a, str b => a == b
  | arr a, arr b => sameItems a b
  | obj a, obj b => sameMembers a b
  | _, _ => false
def sameItems : List Json → List Json → Bool
  | [], [] => true
  | a :: as, b :: bs => same a b && sameItems as bs
  | _, _ => false
def sameMembers : List (String × Json) → List (String × Json) → Bool
  | [], [] => true
  | (k, a) :: as, (l, b) :: bs => k == l && same a b && sameMembers as bs
  | _, _ => false
end

mutual
theorem same_iff : (a b : Json) → (same a b = true ↔ a = b)
  | null, b => by cases b <;> simp [same]
  | bool a, b => by cases b <;> simp [same]
  | num a, b => by cases b <;> simp [same]
  | str a, b => by cases b <;> simp [same]
  | arr a, b => by cases b <;> simp [same, sameItems_iff a]
  | obj a, b => by cases b <;> simp [same, sameMembers_iff a]
theorem sameItems_iff : (as bs : List Json) → (sameItems as bs = true ↔ as = bs)
  | [], bs => by cases bs <;> simp [sameItems]
  | a :: as, bs => by cases bs <;> simp [sameItems, same_iff a, sameItems_iff as]
theorem sameMembers_iff : (as bs : List (String × Json)) → (sameMembers as bs = true ↔ as = bs)
  | [], bs => by cases bs <;> simp [sameMembers]
  | (k, a) :: as, bs => by
    cases bs <;> simp [sameMembers, same_iff a, sameMembers_iff as, Prod.ext_iff]
end

instance : DecidableEq Json := fun a b => decidable_of_iff _ (same_iff a b)

def int? : Json → Option Int
  | num (.int n _) => some n
  | _ => none

def natural? (v : Json) : Option UInt64 :=
  match v.int? with
  | some n => if 0 ≤ n then some (UInt64.ofNat n.toNat) else none
  | none => none

def str? : Json → Option String
  | str s => some s
  | _ => none

def obj? : Json → Option (List (String × Json))
  | obj ms => some ms
  | _ => none

def arr? : Json → Option (List Json)
  | arr xs => some xs
  | _ => none

/-- Strings, numbers and booleans. -/
def isScalar : Json → Bool
  | str _ | num _ | bool _ => true
  | _ => false

/-- A natural as a JSON number; beyond the 64-bit words it is no longer exact. -/
def ofNat (n : Nat) : Json :=
  if h : n < 0x10000000000000000 then num (.int n (by unfold Exact; omega))
  else match Binary64.ofWord? false (nearestWord n 1) with
    | some x => num (.float x)
    | none => null

def ofUInt64 (n : UInt64) : Json := ofNat n.toNat

def ofUInt32 (n : UInt32) : Json := ofNat n.toNat

def ofInt32 (n : Int32) : Json :=
  num (.int n.toInt (by
    have h₁ := n.le_toInt
    have h₂ := n.toInt_lt
    unfold Exact
    omega))

def ofStrings (ss : List String) : Json := arr (ss.map str)

def single (key : String) (value : Json) : Json := obj [(key, value)]

/-- Writes a member.  A key that is there keeps its place and takes the new value. -/
def setMember (key : String) (value : Json) : List (String × Json) → List (String × Json)
  | [] => [(key, value)]
  | (k, v) :: ms => if k = key then (k, value) :: ms else (k, v) :: setMember key value ms

/-- The members of an object from a list of writes, first to last. -/
def ofWrites (ws : List (String × Json)) : List (String × Json) :=
  ws.foldl (fun ms w => setMember w.1 w.2 ms) []

end Json
end ArchivalQuery
