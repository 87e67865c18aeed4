/-!
# Hexadecimal numbers of fixed width
-/

namespace Hotswap.Text

/-- The digits of a number in upper case, with leading zeros up to a width. -/
def upperHex (width n : Nat) : String :=
  let digits := (Nat.toDigits 16 n).map Char.toUpper
  String.ofList (List.replicate (width - digits.length) '0' ++ digits)

end Hotswap.Text
