import ArchivalQuery.Toml.Scalar

/-! # Reading TOML

The reader goes through the characters from the front; every function gives what it read and the
characters that follow.  Repetition is bounded by the length of the document.  Keys have a greatest
number of parts, and arrays and tables in braces a greatest nesting.
-/
namespace ArchivalQuery.Toml.Reader

/-- What is read at the front, and what follows. -/
abbrev Parse (α : Type) := List Char → Option (α × List Char)

/-- Characters that may stand unescaped in strings and comments. -/
def isOpen (c : Char) : Bool := c == '\t' || (0x20 ≤ c.toNat && c.toNat != 0x7F)

def isBlank (c : Char) : Bool := c == ' ' || c == '\t'

def skipBlanks (cs : List Char) : List Char := cs.dropWhile isBlank

def lineEnd? : List Char → Option (List Char)
  | '\n' :: cs => some cs
  | '\r' :: '\n' :: cs => some cs
  | _ => none

/-- What follows a comment at the front, if there is one; its line end stays. -/
def skipComment : List Char → List Char
  | '#' :: cs => cs.dropWhile isOpen
  | cs => cs

def skipFiller : Nat → List Char → List Char
  | 0, cs => cs
  | n + 1, cs =>
    let cs := skipComment (skipBlanks cs)
    match lineEnd? cs with
    | some rest => skipFiller n rest
    | none => cs

/-- The character of a code point that is no surrogate. -/
def charOf? (n : Nat) : Option Char := if h : n.isValidChar then some (Char.ofNatAux n h) else none

def hexChar? (ds : List Char) : Option Char := do
  let n ← ds.foldlM (fun n d => (Json.hexValue? d).map (n * 16 + ·)) 0
  charOf? n

def escaped? : Parse Char
  | 'b' :: cs => some ('\x08', cs)
  | 't' :: cs => some ('\t', cs)
  | 'n' :: cs => some ('\n', cs)
  | 'f' :: cs => some ('\x0c', cs)
  | 'r' :: cs => some ('\r', cs)
  | 'e' :: cs => some ('\x1b', cs)
  | '"' :: cs => some ('"', cs)
  | '\\' :: cs => some ('\\', cs)
  | 'x' :: cs => hex 2 cs
  | 'u' :: cs => hex 4 cs
  | 'U' :: cs => hex 8 cs
  | _ => none
where
  /-- The character of so many hexadecimal digits at the front. -/
  hex (count : Nat) (cs : List Char) : Option (Char × List Char) :=
    if cs.length < count then none
    else (hexChar? (cs.take count)).map (·, cs.drop count)

def basic (read : List Char) : Nat → Parse String
  | 0, _ => none
  | n + 1, cs =>
    match cs with
    | '"' :: rest => some (String.ofList read.reverse, rest)
    | '\\' :: rest => do
      let (c, rest) ← escaped? rest
      basic (c :: read) n rest
    | c :: rest => if isOpen c then basic (c :: read) n rest else none
    | [] => none

def literal : Parse String := fun cs =>
  let text := cs.takeWhile fun c => isOpen c && c != '\''
  match cs.dropWhile fun c => isOpen c && c != '\'' with
  | '\'' :: rest => some (String.ofList text, rest)
  | _ => none

def skipLayout : List Char → List Char
  | '\r' :: '\n' :: cs => skipLayout cs
  | c :: cs => if isBlank c || c == '\n' then skipLayout cs else c :: cs
  | [] => []

/-- What follows a backslash at the end of a line: the blanks and line ends after it are skipped. -/
def afterContinuation? (cs : List Char) : Option (List Char) :=
  (lineEnd? (skipBlanks cs)).map skipLayout

/-- Two quotes may stand before the three that end a string over several lines. -/
def closing? (quote : Char) (cs : List Char) : Option (List Char × List Char) :=
  let run := (cs.takeWhile (· == quote)).length
  if run < 3 then none
  else
    let inner := min (run - 3) 2
    some (List.replicate inner quote, cs.drop (inner + 3))

/-- A string over several lines, after its three quotes and a line end. -/
def multiline (quote : Char) (read : List Char) : Nat → Parse String
  | 0, _ => none
  | n + 1, cs =>
    match closing? quote cs with
    | some (inner, rest) => some (String.ofList (inner ++ read).reverse, rest)
    | none =>
      match cs with
      | '\r' :: '\n' :: rest => multiline quote ('\n' :: '\r' :: read) n rest
      | '\n' :: rest => multiline quote ('\n' :: read) n rest
      | c :: rest =>
        if c == '\\' && quote == '"' then
          match afterContinuation? rest with
          | some rest => multiline quote read n rest
          | none => do
            let (c, rest) ← escaped? rest
            multiline quote (c :: read) n rest
        else if isOpen c then multiline quote (c :: read) n rest
        else none
      | [] => none

def skipLineEnd (cs : List Char) : List Char := (lineEnd? cs).getD cs

/-- A quoted string of any of the four kinds. -/
def string? : Parse String
  | '"' :: '"' :: '"' :: cs => multiline '"' [] (cs.length + 1) (skipLineEnd cs)
  | '\'' :: '\'' :: '\'' :: cs => multiline '\'' [] (cs.length + 1) (skipLineEnd cs)
  | '"' :: cs => basic [] (cs.length + 1) cs
  | '\'' :: cs => literal cs
  | _ => none

def isBare (c : Char) : Bool := c.isAlphanum || c == '_' || c == '-'

def keyPart : Parse String
  | '"' :: cs => basic [] (cs.length + 1) cs
  | '\'' :: cs => literal cs
  | cs =>
    let name := cs.takeWhile isBare
    if name.isEmpty then none else some (String.ofList name, cs.dropWhile isBare)

/-- The greatest number of parts of a key. -/
def maxParts : Nat := 80

/-- A dotted key of at most so many parts; blanks may stand around its points and after it. -/
def keyUpTo : Nat → Parse (List String)
  | 0, _ => none
  | n + 1, cs => do
    let (part, rest) ← keyPart (skipBlanks cs)
    match skipBlanks rest with
    | '.' :: rest =>
      let (parts, rest) ← keyUpTo n rest
      return (part :: parts, rest)
    | rest => return ([part], rest)

def key : Parse (List String) := keyUpTo maxParts

/-- The characters, other than blanks, that end a value without quotes or brackets. -/
def endsScalar (c : Char) : Bool :=
  c == '\r' || c == '\n' || c == '#' || c == '=' || c == ',' || c == '[' || c == ']'
    || c == '\x7b' || c == '\x7d'

def isQuote (c : Char) : Bool := c == '"' || c == '\''

/-- The text of a value without quotes or brackets, and what follows it.  Blanks belong to the text
if more of it comes after them, which does not begin with a quote. -/
def scalarText (read blanks : List Char) : List Char → List Char × List Char
  | [] => (read.reverse, blanks.reverse)
  | c :: cs =>
    if isBlank c then scalarText read (c :: blanks) cs
    else if endsScalar c || (!blanks.isEmpty && isQuote c) then
      (read.reverse, blanks.reverse ++ c :: cs)
    else scalarText (c :: (blanks ++ read)) [] cs

def scalar : Parse Value := fun cs =>
  let (text, rest) := scalarText [] [] cs
  (scalar? text).map (·, rest)

/-- The greatest nesting of arrays and tables in braces. -/
def maxNesting : Nat := 80

mutual
/-- A value of any kind, in which arrays and tables may be nested so deeply. -/
def value (room : Nat) : Nat → Parse Value
  | 0, _ => none
  | n + 1, cs =>
    match cs with
    | '[' :: rest => if room = 0 then none else items (room - 1) n [] (skipFiller n rest)
    | '\x7b' :: rest => if room = 0 then none else members (room - 1) n [] (skipFiller n rest)
    | '"' :: _ | '\'' :: _ => (string? cs).map fun p => (.string p.1, p.2)
    | _ => scalar cs
/-- The items of an array, the latest first, up to its end. -/
def items (room : Nat) : Nat → List Value → Parse Value
  | 0, _, _ => none
  | n + 1, read, cs =>
    match cs with
    | ']' :: rest => some (.array read.reverse, rest)
    | _ => do
      let (v, rest) ← value room n cs
      match skipFiller n rest with
      | ',' :: rest => items room n (v :: read) (skipFiller n rest)
      | ']' :: rest => return (.array (v :: read).reverse, rest)
      | _ => none
def members (room : Nat) : Nat → Entries → Parse Value
  | 0, _, _ => none
  | n + 1, read, cs =>
    match cs with
    | '\x7d' :: rest => some (.table (Entries.toMembers read), rest)
    | _ => do
      let (k, rest) ← key cs
      match skipFiller n rest with
      | '=' :: rest =>
        let (v, rest) ← value room n (skipFiller n rest)
        let read ← Entries.assign [] k v read
        match skipFiller n rest with
        | ',' :: rest => members room n read (skipFiller n rest)
        | '\x7d' :: rest => return (.table (Entries.toMembers read), rest)
        | _ => none
      | _ => none
end

/-- What follows the end of a line, or of the document, after blanks and a comment. -/
def afterLine? (cs : List Char) : Option (List Char) :=
  match skipComment (skipBlanks cs) with
  | [] => some []
  | cs => lineEnd? cs

/-- The lines of a document, under the header read last. -/
def lines : Nat → List String → Entries → List Char → Option Entries
  | 0, _, _, _ => none
  | n + 1, header, es, cs =>
    match skipFiller (n + 1) cs with
    | [] => some es
    | '[' :: '[' :: rest => do
      let (path, rest) ← key rest
      match rest with
      | ']' :: ']' :: rest => lines n path (← Entries.openElement path es) (← afterLine? rest)
      | _ => none
    | '[' :: rest => do
      let (path, rest) ← key rest
      match rest with
      | ']' :: rest => lines n path (← Entries.openTable path es) (← afterLine? rest)
      | _ => none
    | cs => do
      let (k, rest) ← key cs
      match rest with
      | '=' :: rest =>
        let (v, rest) ← value maxNesting (2 * n + 2) (skipBlanks rest)
        lines n header (← Entries.assign header k v es) (← afterLine? rest)
      | _ => none

/-- A document without the mark that may stand before its first character. -/
def withoutMark : List Char → List Char
  | '\ufeff' :: cs => cs
  | cs => cs

end Reader

def read? (text : String) : Option (List (String × Value)) :=
  let cs := Reader.withoutMark text.toList
  (Reader.lines (cs.length + 1) [] [] cs).map Entries.toMembers

end ArchivalQuery.Toml
