/-!
# Blank characters

The characters with the Unicode property `White_Space`, and cutting them off both ends of a text.
-/

namespace Hotswap.Text

/-- Tells whether a character has the property `White_Space`. -/
def isBlank (c : Char) : Bool :=
  let n := c.toNat
  (9 ≤ n && n ≤ 13) || n == 32 || n == 0x85 || n == 0xA0 || n == 0x1680 ||
    (0x2000 ≤ n && n ≤ 0x200A) || n == 0x2028 || n == 0x2029 || n == 0x202F ||
    n == 0x205F || n == 0x3000

/-- Cuts the blanks off the front. -/
def trimFront (cs : List Char) : List Char := cs.dropWhile isBlank

/-- Cuts the blanks off the back. -/
def trimBack (cs : List Char) : List Char := (cs.reverse.dropWhile isBlank).reverse

/-- Cuts the blanks off both ends. -/
def trim (cs : List Char) : List Char := trimBack (trimFront cs)

/-- Cutting the front never lengthens a text. -/
theorem length_trimFront_le (cs : List Char) : (trimFront cs).length ≤ cs.length :=
  (List.dropWhile_sublist _).length_le

end Hotswap.Text
