/-! # Blank text

The characters of the Unicode property White_Space, and texts made of nothing else.
-/
namespace ArchivalQuery.Text

/-- The 25 characters of the property White_Space. -/
def isBlank (c : Char) : Bool :=
  let n := c.toNat
  (9 ≤ n && n ≤ 13) || n == 0x20 || n == 0x85 || n == 0xA0 || n == 0x1680 ||
    (0x2000 ≤ n && n ≤ 0x200A) || n == 0x2028 || n == 0x2029 || n == 0x202F ||
    n == 0x205F || n == 0x3000

/-- Whether a text holds blank characters only; the empty text does. -/
def allBlank (s : String) : Bool := s.toList.all isBlank

def trim (s : String) : String :=
  String.ofList ((s.toList.dropWhile isBlank).reverse.dropWhile isBlank).reverse

end ArchivalQuery.Text
