/-!
Blank characters, the Unicode property White_Space, and text without them at its ends.
-/

namespace TreeEnsemble.Text

def isBlank (c : Char) : Bool :=
  let n := c.toNat
  (9 ≤ n && n ≤ 13) || n == 0x20 || n == 0x85 || n == 0xa0 || n == 0x1680 ||
    (0x2000 ≤ n && n ≤ 0x200a) || n == 0x2028 || n == 0x2029 || n == 0x202f || n == 0x205f ||
    n == 0x3000

/-- The text without its longest blank beginning. -/
def trimLeft (s : List Char) : List Char := s.dropWhile isBlank

/-- The text without its longest blank end. -/
def trimRight (s : List Char) : List Char := (trimLeft s.reverse).reverse

def trim (s : List Char) : List Char := trimRight (trimLeft s)

end TreeEnsemble.Text
