/-! # Unsigned decimals

Naturals below a bound, written as decimal digits after an optional plus sign.
-/
namespace ArchivalQuery.Decimal

def digit? (c : Char) : Option Nat :=
  if c.isDigit then some (c.toNat - '0'.toNat) else none

/-- The value of a nonempty run of digits, if it stays below `bound` all along. -/
def digitsBelow? (bound : Nat) (cs : List Char) : Option Nat :=
  if cs.isEmpty then none else cs.foldlM (step bound) 0
where
  step (bound n : Nat) (c : Char) : Option Nat :=
    match digit? c with
    | some d => if n * 10 + d < bound then some (n * 10 + d) else none
    | none => none

/-- The natural that a text stands for, if it is below `bound`. -/
def unsigned? (bound : Nat) (s : String) : Option Nat :=
  match s.toList with
  | '+' :: cs => digitsBelow? bound cs
  | cs => digitsBelow? bound cs

end ArchivalQuery.Decimal
