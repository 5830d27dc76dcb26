import ArchivalQuery.Json.Number
import ArchivalQuery.Json.Quoted

/-! # JSON text of a value

The compact form has no blank between tokens; the laid out form puts every item and member on a
line of its own.
-/
namespace ArchivalQuery.Json

mutual
def chars : Json → List Char
  | null => ['n', 'u', 'l', 'l']
  | bool true => ['t', 'r', 'u', 'e']
  | bool false => ['f', 'a', 'l', 's', 'e']
  | num n => n.chars
  | str s => quoted s
  | arr [] => ['[', ']']
  | arr (x :: xs) => '[' :: (chars x ++ moreItems xs)
  | obj [] => ['{', '}']
  | obj ((k, v) :: ms) => '{' :: (quoted k ++ ':' :: (chars v ++ moreMembers ms))
/-- The items after the first, and the closing bracket. -/
def moreItems : List Json → List Char
  | [] => [']']
  | x :: xs => ',' :: (chars x ++ moreItems xs)
def moreMembers : List (String × Json) → List Char
  | [] => ['}']
  | (k, v) :: ms => ',' :: (quoted k ++ ':' :: (chars v ++ moreMembers ms))
end

def text (v : Json) : String := String.ofList v.chars

def newline (level : Nat) : List Char := '\n' :: List.replicate (2 * level) ' '

mutual
/-- The laid out form of a value whose first line is at the given level. -/
def laidOut (level : Nat) : Json → List Char
  | arr (x :: xs) =>
    '[' :: (newline (level + 1) ++ laidOut (level + 1) x ++ moreItemLines level xs)
  | obj ((k, v) :: ms) =>
    '{' :: (newline (level + 1) ++ quoted k ++ ':' :: ' ' ::
      (laidOut (level + 1) v ++ moreMemberLines level ms))
  | v => chars v
def moreItemLines (level : Nat) : List Json → List Char
  | [] => newline level ++ [']']
  | x :: xs => ',' :: (newline (level + 1) ++ laidOut (level + 1) x ++ moreItemLines level xs)
def moreMemberLines (level : Nat) : List (String × Json) → List Char
  | [] => newline level ++ ['}']
  | (k, v) :: ms =>
    ',' :: (newline (level + 1) ++ quoted k ++ ':' :: ' ' ::
      (laidOut (level + 1) v ++ moreMemberLines level ms))
end

def lines (v : Json) : String := String.ofList (laidOut 0 v)

end ArchivalQuery.Json
