import ArchivalQuery.Decimal.Binary64

/-! # Decimal numerals

The written form of a number in its parts: digits, a fraction, and an exponent.  Whether a sequence
of characters is a numeral says nothing about its size: a numeral may stand for a number that is too
large to be kept.
-/
namespace ArchivalQuery.Decimal

structure Numeral where
  negative : Bool
  /-- The digits before the point. -/
  whole : List Char
  /-- The digits after the point; none if there is no point. -/
  fraction : List Char := []
  /-- Whether the exponent is below zero, and its digits. -/
  exponent : Option (Bool × List Char) := none
deriving DecidableEq, Repr

namespace Numeral

def isMark (c : Char) : Bool := c == '.' || c == 'e' || c == 'E'

def isPart (c : Char) : Bool := c.isDigit || c == '-' || c == '+' || isMark c

def areDigits (cs : List Char) : Bool := !cs.isEmpty && cs.all Char.isDigit

/-- The sign and the digits of an exponent, after its letter. -/
def exponent? : List Char → Option (Bool × List Char)
  | '-' :: ds => if areDigits ds then some (true, ds) else none
  | '+' :: ds => if areDigits ds then some (false, ds) else none
  | ds => if areDigits ds then some (false, ds) else none

/-- The numeral with what follows its digits: nothing, or an exponent. -/
def withTail? (n : Numeral) : List Char → Option Numeral
  | [] => some n
  | c :: cs =>
    if c = 'e' ∨ c = 'E' then (exponent? cs).map fun e => { n with exponent := some e } else none

/-- The numeral after its sign.  No zero stands before other digits. -/
def unsigned? (negative : Bool) (cs : List Char) : Option Numeral :=
  let whole := cs.takeWhile Char.isDigit
  if whole.isEmpty || (whole.head? = some '0' && 1 < whole.length) then none else
    match cs.dropWhile Char.isDigit with
    | '.' :: rest =>
      let fraction := rest.takeWhile Char.isDigit
      if fraction.isEmpty then none
      else withTail? { negative, whole, fraction } (rest.dropWhile Char.isDigit)
    | rest => withTail? { negative, whole } rest

def ofChars? : List Char → Option Numeral
  | '-' :: cs => unsigned? true cs
  | cs => unsigned? false cs

def natural (ds : List Char) : Nat := ds.foldl (fun n c => n * 10 + (c.toNat - '0'.toNat)) 0

/-- The power of ten of the last digit. -/
def lastPlace (n : Numeral) : Int :=
  (match n.exponent with
    | none => 0
    | some (true, ds) => -(natural ds : Int)
    | some (false, ds) => (natural ds : Int)) - n.fraction.length

/-- Whether the nearest binary64 number is finite.  Only a number of 309 places before the point
needs to be looked at closely. -/
def isFinite (n : Numeral) : Bool :=
  let ds := (n.whole ++ n.fraction).dropWhile (· == '0')
  let places : Int := ds.length + n.lastPlace
  if ds.isEmpty || places < 309 then true
  else if 309 < places then false
  else
    nearestWord (natural ds * Nat.pow 10 n.lastPlace.toNat) (Nat.pow 10 (-n.lastPlace).toNat)
      < infinityWord

end Numeral
end ArchivalQuery.Decimal
