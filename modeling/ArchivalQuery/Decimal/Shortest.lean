import ArchivalQuery.Decimal.Binary64

/-! # Shortest decimals

The decimal with the fewest digits that reads back as a given magnitude, and of those the one
nearest to it.  For each number of digits the two neighbours of the magnitude on that decimal grid
are tried; the coarsest grid with a hit wins.
-/
namespace ArchivalQuery.Decimal

/-- The reals that round to one magnitude, on the grid `10 ^ exponent`, all in quarters of the last
binary place: `unit / den` is one quarter, `low` and `high` are the ends in quarters, and `closed`
says that the ends belong to the interval. -/
structure Interval where
  low : Nat
  value : Nat
  high : Nat
  closed : Bool
  unit : Nat
  den : Nat

/-- The rounding interval of a magnitude word; the lower half is narrower at the foot of a
binade. -/
def interval (w : Nat) (exponent : Int) : Interval :=
  let (m, q) := significand w
  let narrow := w % fractionCount = 0 && 2 * fractionCount ≤ w
  { low := if narrow then 4 * m - 1 else 4 * m - 2
    value := 4 * m
    high := 4 * m + 2
    closed := m % 2 = 0
    unit := Nat.pow 10 (-exponent).toNat <<< (q - 2).toNat
    den := Nat.pow 10 exponent.toNat <<< (2 - q).toNat }

namespace Interval

/-- Whether the grid point `d` rounds to the magnitude. -/
def mem (i : Interval) (d : Nat) : Bool :=
  if i.closed then i.low * i.unit ≤ d * i.den && d * i.den ≤ i.high * i.unit
  else i.low * i.unit < d * i.den && d * i.den < i.high * i.unit

/-- The grid point in the interval that is nearest to the magnitude, the even one on a tie. -/
def nearest? (i : Interval) : Option Nat :=
  let v := i.value * i.unit
  let d := v / i.den
  match i.mem d, i.mem (d + 1) with
  | true, true =>
    let below := v - d * i.den
    let above := (d + 1) * i.den - v
    some (if below < above then d else if above < below then d + 1 else d + d % 2)
  | true, false => some d
  | false, true => some (d + 1)
  | false, false => none

end Interval

/-- The first hit on `count` grids, each ten times finer than the one before. -/
def firstHit (w : Nat) (exponent : Int) : Nat → Nat × Int
  | 0 => (0, 0)
  | count + 1 =>
    match (interval w exponent).nearest? with
    | some d => (d, exponent)
    | none => firstHit w (exponent - 1) count

/-- The shortest decimal `d · 10 ^ g` of a positive magnitude word, as the pair of `d` and `g`.  The
search starts above the leading digit and passes the seventeenth. -/
def shortest (w : Nat) : Nat × Int :=
  let (m, q) := significand w
  let top := ((Nat.log2 m : Int) + q + 1) * 30103 / 100000 + 2
  firstHit w top 23

end ArchivalQuery.Decimal
