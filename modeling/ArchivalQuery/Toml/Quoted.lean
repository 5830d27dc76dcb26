import ArchivalQuery.Json.Quoted

/-! # TOML strings

A string is written in the first of four styles that needs no escape, or as a basic string with
escapes.
-/
namespace ArchivalQuery.Toml

def longestRun (c : Char) (cs : List Char) : Nat :=
  (cs.foldl (fun (best, run) d => if d = c then (max best (run + 1), run + 1) else (best, 0))
    (0, 0)).1

/-- Control characters other than tab and line feed; only an escape can write them. -/
def needsEscape (c : Char) : Bool :=
  (c.toNat < 0x20 || c.toNat == 0x7F) && c != '\t' && c != '\n'

/-- A character of a basic string; over several lines a line feed stands as it is. -/
def escape (multiline : Bool) (c : Char) : List Char :=
  if c = '\x08' then ['\\', 'b']
  else if c = '\t' then ['\\', 't']
  else if c = '\n' then if multiline then ['\n'] else ['\\', 'n']
  else if c = '\x0c' then ['\\', 'f']
  else if c = '\r' then ['\\', 'r']
  else if c = '\\' then ['\\', '\\']
  else if c.toNat < 0x20 || c.toNat == 0x7F then
    ['\\', 'u', '0', '0', (Json.hexDigit (c.toNat / 16)).toUpper,
      (Json.hexDigit (c.toNat % 16)).toUpper]
  else [c]

/-- The characters of a basic string; a run of quotes is broken by an escape after `allowed`. -/
def basicChars (multiline : Bool) (allowed : Nat) : Nat → List Char → List Char
  | _, [] => []
  | run, c :: cs =>
    if c = '"' then
      if allowed ≤ run then '\\' :: '"' :: basicChars multiline allowed 0 cs
      else '"' :: basicChars multiline allowed (run + 1) cs
    else escape multiline c ++ basicChars multiline allowed 0 cs

/-- The delimiter of a string over several lines, and the line end after it if the string has
one. -/
def opening (quote : Char) (hasLine : Bool) : List Char :=
  List.replicate 3 quote ++ if hasLine then ['\n'] else []

def quoted (s : String) : List Char :=
  let cs := s.toList
  let controls := cs.any needsEscape
  let backslash := cs.contains '\\'
  let line := cs.contains '\n'
  let doubles := longestRun '"' cs
  let singles := longestRun '\'' cs
  if !controls && !backslash && doubles == 0 && !line then
    '"' :: (basicChars false 0 0 cs ++ ['"'])
  else if !controls && singles == 0 && !line then
    '\'' :: (cs ++ ['\''])
  else if !controls && !backslash && doubles ≤ 2 then
    opening '"' line ++ basicChars true 2 0 cs ++ ['"', '"', '"']
  else if !controls && singles ≤ 2 then
    opening '\'' line ++ cs ++ ['\'', '\'', '\'']
  else if line then
    opening '"' line ++ basicChars true 2 0 cs ++ ['"', '"', '"']
  else
    '"' :: (basicChars false 0 0 cs ++ ['"'])

end ArchivalQuery.Toml
