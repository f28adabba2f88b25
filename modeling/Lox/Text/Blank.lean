/-! White space around a line of text: the characters of the Unicode property
White_Space, and the four information separators. -/

namespace Lox.Text

def isBlank (c : Char) : Bool :=
  let n := c.toNat
  (0x09 ≤ n && n ≤ 0x0D) || (0x1C ≤ n && n ≤ 0x20) || n == 0x85 || n == 0xA0 || n == 0x1680 ||
    (0x2000 ≤ n && n ≤ 0x200A) || n == 0x2028 || n == 0x2029 || n == 0x202F || n == 0x205F ||
    n == 0x3000

/-- A text without the white space at its beginning. -/
def trimStart (text : List Char) : List Char := text.dropWhile isBlank

/-- A text without the white space at both of its ends. -/
def trim (text : List Char) : List Char := (trimStart (trimStart text).reverse).reverse

end Lox.Text
