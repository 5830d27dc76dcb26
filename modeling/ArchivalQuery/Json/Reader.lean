import ArchivalQuery.Json.Draft
import ArchivalQuery.Json.Number
import ArchivalQuery.Json.Quoted

/-! # Reading JSON text

The reader takes one character after the other.  Its state is the stack of containers that are still
open and what may stand at the next place.  It gives the draft of a text; a text has a value if its
draft has one.
-/
namespace ArchivalQuery.Json.Reader
open Decimal (Numeral)

/-- The greatest number of containers around one another that have a value. -/
def maxDepth : Nat := 127

/-- An open container, the latest part first: an array with its items, or an object with its
members, before a name or after one.  A name that has no value is kept as none. -/
inductive Frame
  | array (items : List Draft)
  | object (members : List (Option String × Draft))
  | member (members : List (Option String × Draft)) (name : Option String)

/-- How far an escape inside quotes has come.  A surrogate of the upper half waits for its
partner. -/
inductive Escape
  | none
  | backslash
  | unit (left value : Nat) (high : Option Nat)
  | partnerBackslash (high : Nat)
  | partnerLetter (high : Nat)

/-- A string that is still open: its characters, the latest first, and whether every surrogate has
had its partner. -/
structure Quote where
  isName : Bool
  read : List Char := []
  paired : Bool := true

namespace Quote

def push (q : Quote) (c : Char) : Quote := { q with read := c :: q.read }

/-- A surrogate without its partner. -/
def spoil (q : Quote) : Quote := { q with paired := false }

def text? (q : Quote) : Option String :=
  if q.paired then some (String.ofList q.read.reverse) else none

end Quote

inductive Mode
  | value
  | itemOrEnd
  | nameOrEnd
  | name
  | colon (name : Option String)
  | next
  | quoted (quote : Quote) (escape : Escape)
  | word (left : List Char) (draft : Draft)
  | number (read : List Char)
  | finished (draft : Draft)
  | failed

structure State where
  stack : List Frame := []
  mode : Mode := .value

/-- The state in which nothing can follow any more. -/
def State.failure : State := ⟨[], .failed⟩

def isSpace (c : Char) : Bool := c == ' ' || c == '\n' || c == '\t' || c == '\r'

/-- Puts a complete draft into the innermost container. -/
def settle (d : Draft) : List Frame → State
  | [] => ⟨[], .finished d⟩
  | .array ds :: stack => ⟨.array (d :: ds) :: stack, .next⟩
  | .member ms k :: stack => ⟨.object ((k, d) :: ms) :: stack, .next⟩
  | .object _ :: _ => .failure

/-- Closes a container inside others.  It is a fault if they are too many. -/
def close (d : Draft) (stack : List Frame) : State :=
  settle (if (stack.drop (maxDepth - 1)).isEmpty then d else .fault) stack

/-- The object of its members, the latest first; it is a fault if a name has no value. -/
def object (members : List (Option String × Draft)) : Draft :=
  match members.reverse.mapM fun m => m.1.map (·, m.2) with
  | some ms => .obj ms
  | none => .fault

def startValue (stack : List Frame) (c : Char) : State :=
  if c = '"' then ⟨stack, .quoted { isName := false } .none⟩
  else if c = '[' then ⟨.array [] :: stack, .itemOrEnd⟩
  else if c = '{' then ⟨.object [] :: stack, .nameOrEnd⟩
  else if c = 'n' then ⟨stack, .word ['u', 'l', 'l'] .null⟩
  else if c = 't' then ⟨stack, .word ['r', 'u', 'e'] (.bool true)⟩
  else if c = 'f' then ⟨stack, .word ['a', 'l', 's', 'e'] (.bool false)⟩
  else if Numeral.isPart c then ⟨stack, .number [c]⟩
  else .failure

/-- A character after a complete value: the end of its container or a comma. -/
def afterValue : List Frame → Char → State
  | .array ds :: stack, c =>
    if c = ',' then ⟨.array ds :: stack, .value⟩
    else if c = ']' then close (.arr ds.reverse) stack
    else .failure
  | .object ms :: stack, c =>
    if c = ',' then ⟨.object ms :: stack, .name⟩
    else if c = '}' then close (object ms) stack
    else .failure
  | _, _ => .failure

def closeQuote (stack : List Frame) (q : Quote) : State :=
  if q.isName then ⟨stack, .colon q.text?⟩
  else settle (match q.text? with | some s => .str s | none => .fault) stack

def inQuotes (stack : List Frame) (q : Quote) (c : Char) : State :=
  if c = '"' then closeQuote stack q
  else if c = '\\' then ⟨stack, .quoted q .backslash⟩
  else if c.toNat < 0x20 then .failure
  else ⟨stack, .quoted (q.push c) .none⟩

def afterBackslash (stack : List Frame) (q : Quote) (c : Char) : State :=
  if c = 'u' then ⟨stack, .quoted q (.unit 4 0 none)⟩
  else match unescape? c with
    | some d => ⟨stack, .quoted (q.push d) .none⟩
    | none => .failure

def finishUnit (stack : List Frame) (q : Quote) (n : Nat) : Option Nat → State
  | none =>
    if 0xD800 ≤ n ∧ n < 0xDC00 then ⟨stack, .quoted q (.partnerBackslash n)⟩
    else if 0xDC00 ≤ n ∧ n < 0xE000 then ⟨stack, .quoted q.spoil .none⟩
    else ⟨stack, .quoted (q.push (Char.ofNat n)) .none⟩
  | some high =>
    if 0xDC00 ≤ n ∧ n < 0xE000 then
      let c := Char.ofNat (0x10000 + (high - 0xD800) * 0x400 + (n - 0xDC00))
      ⟨stack, .quoted (q.push c) .none⟩
    else ⟨stack, .quoted q.spoil .none⟩

/-- A character inside quotes.  One that is no partner of the surrogate before it starts anew. -/
def stepQuoted (stack : List Frame) (q : Quote) (c : Char) : Escape → State
  | .none => inQuotes stack q c
  | .backslash => afterBackslash stack q c
  | .unit left value high =>
    match hexValue? c with
    | none => .failure
    | some d =>
      if left ≤ 1 then finishUnit stack q (value * 16 + d) high
      else ⟨stack, .quoted q (.unit (left - 1) (value * 16 + d) high)⟩
  | .partnerBackslash high =>
    if c = '\\' then ⟨stack, .quoted q (.partnerLetter high)⟩ else inQuotes stack q.spoil c
  | .partnerLetter high =>
    if c = 'u' then ⟨stack, .quoted q (.unit 4 0 (some high))⟩
    else afterBackslash stack q.spoil c

/-- The end of a number, before the character that follows it. -/
def closeNumber (stack : List Frame) (read : List Char) : State :=
  match Numeral.ofChars? read.reverse with
  | none => .failure
  | some n => settle (match Number.ofNumeral? n with | some x => .num x | none => .fault) stack

def step (s : State) (c : Char) : State :=
  match s.mode with
  | .quoted q escape => stepQuoted s.stack q c escape
  | .failed => s
  | .number read =>
    if Numeral.isPart c then ⟨s.stack, .number (c :: read)⟩
    else
      let done := closeNumber s.stack read
      match done.mode with
      | .failed => done
      | _ => if isSpace c then done else afterValue done.stack c
  | .word (d :: left) v =>
    if c = d then
      match left with
      | [] => settle v s.stack
      | _ => ⟨s.stack, .word left v⟩
    else .failure
  | .word [] _ => .failure
  | mode =>
    if isSpace c then s
    else match mode with
      | .value => startValue s.stack c
      | .itemOrEnd => if c = ']' then afterValue s.stack c else startValue s.stack c
      | .nameOrEnd =>
        if c = '}' then afterValue s.stack c
        else if c = '"' then ⟨s.stack, .quoted { isName := true } .none⟩
        else .failure
      | .name => if c = '"' then ⟨s.stack, .quoted { isName := true } .none⟩ else .failure
      | .colon k =>
        match s.stack with
        | .object ms :: stack => if c = ':' then ⟨.member ms k :: stack, .value⟩ else .failure
        | _ => .failure
      | .next => afterValue s.stack c
      | _ => .failure

def State.result (s : State) : Option Draft :=
  match s.mode with
  | .finished d => some d
  | .number read =>
    match (closeNumber s.stack read).mode with
    | .finished d => some d
    | _ => none
  | _ => none

end Reader

def Draft.ofChars? (cs : List Char) : Option Draft := (cs.foldl Reader.step {}).result

def Draft.ofText? (s : String) : Option Draft := ofChars? s.toList

def ofChars? (cs : List Char) : Option Json := (Draft.ofChars? cs).bind Draft.value?

def ofText? (s : String) : Option Json := ofChars? s.toList

end ArchivalQuery.Json
