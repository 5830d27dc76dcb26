import ArchivalQuery.Decimal.Numeral
import ArchivalQuery.Json.Quoted
import ArchivalQuery.Toml.Value

/-! # TOML numbers, truth values and moments

What a value without quotes or brackets stands for.  Underscores may stand between two digits.  A
number may be well formed and still have no value.
-/
namespace ArchivalQuery.Toml
open Decimal (Numeral)

/-- Digits of base sixteen, which has the digits of all other bases. -/
def isHexDigit (c : Char) : Bool := (Json.hexValue? c).isSome

/-- A text without its underscores, each of which stands between two digits. -/
def joined? (isDigit : Char → Bool) : List Char → Option (List Char)
  | [] => some []
  | c :: '_' :: d :: cs =>
    if isDigit c && isDigit d then (joined? isDigit (d :: cs)).map (c :: ·) else none
  | c :: cs => if c = '_' ∨ cs = ['_'] then none else (joined? isDigit cs).map (c :: ·)

/-- The natural of digits in a base, if there are any and the base has them all. -/
def natural? (base : Nat) (ds : List Char) : Option Nat :=
  if ds.isEmpty then none
  else ds.foldlM (fun n c => do
    let d ← Json.hexValue? c
    if d < base then some (n * base + d) else none) 0

/-- The value of an integer, which has at most 128 bits. -/
def bounded (n : Int) : Value :=
  if -0x80000000000000000000000000000000 ≤ n ∧ n < 0x100000000000000000000000000000000 then
    .integer n
  else .fault

def inBase? (base : Nat) (cs : List Char) : Option Value :=
  if cs.all fun c => c == '_' || (Json.hexValue? c).any (· < base) then do
    let ds ← joined? isHexDigit cs
    return match natural? base ds with
      | some n => bounded n
      | none => .fault
  else none

/-- The characters that no integer has: the marks of floats, and the space. -/
def endsInteger (c : Char) : Bool := Numeral.isMark c || c == ' '

/-- The decimal integer after its sign.  After an underscore its characters are not looked at, so it
may turn out to have no value. -/
def decimal? (negative : Bool) (cs : List Char) : Option Value :=
  let rest := cs.dropWhile Char.isDigit
  if !cs.head?.any Char.isDigit || (1 < cs.length && cs.head? = some '0') then none
  else if rest.isEmpty || (rest.head? = some '_' && !rest.any endsInteger) then do
    let ds ← joined? isHexDigit cs
    return match natural? 10 ds with
      | some n => bounded (if negative then -(n : Int) else n)
      | none => .fault
  else none

def integer? : List Char → Option Value
  | '0' :: 'x' :: cs => inBase? 16 cs
  | '0' :: 'o' :: cs => inBase? 8 cs
  | '0' :: 'b' :: cs => inBase? 2 cs
  | '+' :: cs => decimal? false cs
  | '-' :: cs => decimal? true cs
  | cs => decimal? false cs

def unsignedText : List Char → List Char
  | '+' :: cs => cs
  | '-' :: cs => cs
  | cs => cs

/-- A float, which has a fraction or an exponent unless it is no number at all or infinite. -/
def float? (cs : List Char) : Option Value :=
  let body := unsignedText cs
  let written := String.ofList cs
  if body = ['i', 'n', 'f'] || body = ['n', 'a', 'n'] then some (.float written)
  else if !body.any Numeral.isMark then none
  else do
    let n ← Numeral.unsigned? false (← joined? Char.isDigit body)
    return if n.isFinite then .float written else .fault

def twoDigits? : List Char → Option (Nat × List Char)
  | a :: b :: cs =>
    if a.isDigit && b.isDigit then some ((a.toNat - 48) * 10 + (b.toNat - 48), cs) else none
  | _ => none

def daysIn (year month : Nat) : Nat :=
  if month = 2 then
    if year % 4 = 0 && (year % 100 != 0 || year % 400 = 0) then 29 else 28
  else if month = 4 || month = 6 || month = 9 || month = 11 then 30 else 31

def afterDate? (cs : List Char) : Option (List Char) := do
  let (century, cs) ← twoDigits? cs
  let (year, cs) ← twoDigits? cs
  match cs with
  | '-' :: cs =>
    let (month, cs) ← twoDigits? cs
    match cs with
    | '-' :: cs =>
      let (day, cs) ← twoDigits? cs
      if 1 ≤ month && month ≤ 12 && 1 ≤ day && day ≤ daysIn (century * 100 + year) month then
        some cs
      else none
    | _ => none
  | _ => none

def afterFraction? : List Char → Option (List Char)
  | '.' :: cs =>
    if (cs.takeWhile Char.isDigit).isEmpty then none else some (cs.dropWhile Char.isDigit)
  | cs => some cs

/-- What follows a time of day at the front; the seconds may be left out. -/
def afterTime? (cs : List Char) : Option (List Char) := do
  let (hour, cs) ← twoDigits? cs
  match cs with
  | ':' :: cs =>
    let (minute, cs) ← twoDigits? cs
    if 23 < hour || 59 < minute then none else
      match cs with
      | ':' :: cs =>
        let (second, cs) ← twoDigits? cs
        if 60 < second then none else afterFraction? cs
      | cs => some cs
  | _ => none

def isOffset (cs : List Char) : Bool :=
  match cs with
  | [] | ['Z'] | ['z'] => true
  | sign :: a :: b :: ':' :: c :: d :: [] =>
    (sign == '+' || sign == '-') &&
      (match twoDigits? [a, b], twoDigits? [c, d] with
        | some (hour, _), some (minute, _) => hour ≤ 23 && minute ≤ 59
        | _, _ => false)
  | _ => false

def isMoment (cs : List Char) : Bool :=
  match afterDate? cs with
  | some [] => true
  | some (c :: rest) =>
    (c == 'T' || c == 't' || c == ' ') &&
      (match afterTime? rest with
        | some offset => isOffset offset
        | none => false)
  | none => afterTime? cs == some []

def scalar? (cs : List Char) : Option Value :=
  if cs = ['t', 'r', 'u', 'e'] then some (.boolean true)
  else if cs = ['f', 'a', 'l', 's', 'e'] then some (.boolean false)
  else if isMoment cs then some (.moment (String.ofList cs))
  else (integer? cs).or (float? cs)

end ArchivalQuery.Toml
