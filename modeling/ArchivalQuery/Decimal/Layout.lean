import ArchivalQuery.Decimal.Shortest

/-! # Decimal layout

How a binary64 number is set out in characters: which exponents are written in plain positions, and
what the others look like.
-/
namespace ArchivalQuery.Decimal

/-- The layout of a number.  Numbers whose leading digit has an exponent from `plainFrom` up to, not
including, `plainBelow` are written plain and always with a point. -/
structure Layout where
  plainFrom : Int
  plainBelow : Int
  /-- Written between the digits and the exponent of a number that is not plain. -/
  mark : Char
  /-- Whether a positive exponent carries its sign. -/
  signed : Bool

def digits (n : Nat) : List Char := Nat.toDigits 10 n

def integer (n : Int) : List Char :=
  if n < 0 then '-' :: digits n.natAbs else digits n.natAbs

namespace Layout

/-- Digits in plain positions, the first of them at exponent `e`. -/
def plain (ds : List Char) (e : Int) : List Char :=
  if e < 0 then
    '0' :: '.' :: (List.replicate (-e - 1).toNat '0' ++ ds)
  else if ds.length ≤ e.toNat + 1 then
    ds ++ List.replicate (e.toNat + 1 - ds.length) '0' ++ ['.', '0']
  else
    ds.take (e.toNat + 1) ++ '.' :: ds.drop (e.toNat + 1)

/-- Digits with one place before the point and the exponent `e` after them. -/
def scientific (l : Layout) (ds : List Char) (e : Int) : List Char :=
  let fraction := match ds with
    | d :: r :: rs => d :: '.' :: r :: rs
    | short => short
  let sign := if e < 0 then ['-'] else if l.signed then ['+'] else []
  fraction ++ l.mark :: (sign ++ digits e.natAbs)

def magnitude (l : Layout) (w : Nat) : List Char :=
  if w = 0 then ['0', '.', '0'] else
    let (d, g) := shortest w
    let ds := digits d
    let e := g + ds.length - 1
    if l.plainFrom ≤ e ∧ e < l.plainBelow then plain ds e else l.scientific ds e

/-- The characters of a number; the sign of zero is kept. -/
def chars (l : Layout) (x : Binary64) : List Char :=
  if x.negative then '-' :: l.magnitude x.magnitude else l.magnitude x.magnitude

end Layout
end ArchivalQuery.Decimal
