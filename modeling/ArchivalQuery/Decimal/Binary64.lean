/-! # Finite binary64 numbers

A finite number is a sign and a magnitude word: 52 fraction bits below the exponent field.  The
words are ordered as the magnitudes they stand for, so the word one past the greatest finite
magnitude is the place of infinity.  All arithmetic is exact on naturals and rounds once.
-/
namespace ArchivalQuery.Decimal

/-- The magnitude word of infinity: the first exponent field that no finite number has. -/
def infinityWord : Nat := 0x7FF0000000000000

/-- The number of fractions below one exponent field. -/
def fractionCount : Nat := 0x10000000000000

/-- A finite binary64 number. -/
structure Binary64 where
  negative : Bool
  magnitude : Fin infinityWord
deriving DecidableEq, Repr

/-- The number `m · 2 ^ q` that a magnitude word stands for, as the pair of `m` and `q`. -/
def significand (w : Nat) : Nat × Int :=
  if w < fractionCount then (w, -1074)
  else (fractionCount + w % fractionCount, (w / fractionCount : Nat) - 1075)

/-- The quotient to the nearest natural; a half goes to the even neighbour. -/
def roundEven (num den : Nat) : Nat :=
  let q := num / den
  let r := num % den
  if 2 * r < den then q else if den < 2 * r then q + 1 else q + q % 2

/-- The fraction `num / den · 2 ^ q` with the power moved into one of the two sides. -/
def scaled (num den : Nat) (q : Int) : Nat × Nat :=
  (num <<< q.toNat, den <<< (-q).toNat)

/-- The greatest `e` with `2 ^ e ≤ num / den`, for a positive fraction. -/
def binade (num den : Nat) : Int :=
  let e : Int := (Nat.log2 num : Int) - Nat.log2 den
  let (n, d) := scaled num den (-e)
  if d ≤ n then e else e - 1

/-- The magnitude word nearest to a fraction; at `infinityWord` and above it is too large for a
finite number. -/
def nearestWord (num den : Nat) : Nat :=
  if num = 0 then 0 else
    let q := max (binade num den - 52) (-1074)
    let (n, d) := scaled num den (-q)
    roundEven n d + (q + 1074).toNat * fractionCount

def mulWord (a b : Nat) : Nat :=
  let (m, p) := significand a
  let (n, q) := significand b
  let (num, den) := scaled (m * n) 1 (p + q)
  nearestWord num den

def divWord (a b : Nat) : Nat :=
  let (m, p) := significand a
  let (n, q) := significand b
  let (num, den) := scaled m n (p - q)
  nearestWord num den

def tenWord (k : Nat) : Nat := nearestWord (Nat.pow 10 k) 1

namespace Binary64

/-- The number of a sign and a magnitude word, if the word is finite. -/
def ofWord? (negative : Bool) (w : Nat) : Option Binary64 :=
  if h : w < infinityWord then some ⟨negative, w, h⟩ else none

def zero (negative : Bool) : Binary64 := ⟨negative, 0, by decide⟩

end Binary64
end ArchivalQuery.Decimal
