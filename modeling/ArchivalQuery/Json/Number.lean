import ArchivalQuery.Decimal.Layout
import ArchivalQuery.Decimal.Numeral
import ArchivalQuery.Decimal.Unsigned
import ArchivalQuery.Json.Basic

/-! # JSON numbers in text

The written form of a number, and the number that a numeral stands for.  An integer within the
64-bit words is written and read exactly.  Every other number is read in two roundings: its leading
digits become the nearest binary64 number, which is then scaled by a power of ten.
-/
namespace ArchivalQuery.Json.Number
open Decimal

/-- Floats are plain from five places after the point to sixteen before it. -/
def layout : Layout := { plainFrom := -5, plainBelow := 16, mark := 'e', signed := true }

def chars : Number → List Char
  | int n _ => integer n
  | float x => layout.chars x

/-- The number `leading · 10 ^ exponent` of the digits read so far.  Once `full`, no further digit
goes into the leading word. -/
structure Digits where
  leading : Nat := 0
  exponent : Int := 0
  full : Bool := false

/-- The leading word with one more digit, if it stays a 64-bit word. -/
def Digits.extend? (p : Digits) (c : Char) : Option Nat :=
  if p.full then none else
    let n := p.leading * 10 + (c.toNat - '0'.toNat)
    if n < UInt64.size then some n else none

/-- A digit before the point; one that finds no room counts as a place. -/
def Digits.whole (p : Digits) (c : Char) : Digits :=
  match p.extend? c with
  | some n => { p with leading := n }
  | none => { p with exponent := p.exponent + 1, full := true }

/-- A digit after the point; one that finds no room is dropped. -/
def Digits.fraction (p : Digits) (c : Char) : Digits :=
  match p.extend? c with
  | some n => { p with leading := n, exponent := p.exponent - 1 }
  | none => { p with full := true }

/-- The magnitude word `w` divided by `10 ^ k`, in steps of at most `10 ^ 308`. -/
def scaleDown (w k : Nat) : Nat :=
  if h : k ≤ 308 then divWord w (tenWord k)
  else if w = 0 then 0
  else scaleDown (divWord w (tenWord 308)) (k - 308)
termination_by k

/-- The magnitude word `w` multiplied by `10 ^ k`; beyond `10 ^ 308` only zero can be scaled. -/
def scaleUp (w k : Nat) : Nat :=
  if k ≤ 308 then mulWord w (tenWord k) else if w = 0 then 0 else infinityWord

def ofDigits? (negative : Bool) (p : Digits) : Option Number :=
  let w := nearestWord p.leading 1
  let e := p.exponent
  (Binary64.ofWord? negative (if 0 ≤ e then scaleUp w e.toNat else scaleDown w (-e).toNat)).map float

/-- The number of a sign and whole digits alone.  Negative zero is a float. -/
def ofWhole? (negative : Bool) (p : Digits) : Option Number :=
  if p.full then ofDigits? negative p
  else if negative then
    if h : 0 < p.leading ∧ p.leading ≤ 0x8000000000000000 then
      some (int (-p.leading) (by unfold Exact; omega))
    else ofDigits? true p
  else if h : p.leading < 0x10000000000000000 then some (int p.leading (by unfold Exact; omega))
  else ofDigits? false p

/-- The number of digits with an explicit exponent.  An exponent too large for a signed 32-bit word
leaves zero unless it is positive. -/
def withExponent? (negative : Bool) (p : Digits) (below : Bool) (ds : List Char) : Option Number :=
  match digitsBelow? 0x80000000 ds with
  | some e =>
    ofDigits? negative { p with exponent := p.exponent + if below then -(e : Int) else e }
  | none => if below || p.leading = 0 then some (float (.zero negative)) else none

def ofNumeral? (n : Numeral) : Option Number :=
  let p := n.whole.foldl Digits.whole {}
  let q := n.fraction.foldl Digits.fraction { p with full := false }
  match n.exponent with
  | some (below, ds) => withExponent? n.negative q below ds
  | none => if n.fraction.isEmpty then ofWhole? n.negative p else ofDigits? n.negative q

end ArchivalQuery.Json.Number
