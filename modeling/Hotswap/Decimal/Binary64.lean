/-!
# Double precision numbers

A number is kept as its 64 bits, so that two numbers are equal in Lean exactly when they agree bit
for bit; the comparisons of IEEE 754 are operations beside that equality.
-/

namespace Hotswap

/-- A double precision number, by its bits. -/
structure Binary64 where
  bits : UInt64
  deriving DecidableEq, Repr, Inhabited

namespace Binary64

/-- The positive zero. -/
def zero : Binary64 := ⟨0⟩

/-- The number held in a machine register. -/
def toFloat (a : Binary64) : Float := Float.ofBits a.bits

/-- The bits of the number held in a machine register. -/
def ofFloat (f : Float) : Binary64 := ⟨f.toBits⟩

/-- Tells whether the sign bit is set. -/
def isNegative (a : Binary64) : Bool := a.bits.toNat / 0x8000000000000000 == 1

/-- The eleven exponent bits. -/
def exponent (a : Binary64) : Nat := a.bits.toNat / 0x10000000000000 % 0x800

/-- The fifty-two fraction bits. -/
def fraction (a : Binary64) : Nat := a.bits.toNat % 0x10000000000000

/-- Tells whether the bits stand for no number. -/
def isNaN (a : Binary64) : Bool := a.exponent == 2047 && a.fraction != 0

/-- Tells whether the number is one of the two infinities. -/
def isInfinite (a : Binary64) : Bool := a.exponent == 2047 && a.fraction == 0

/-- Tells whether the number is one of the two zeros. -/
def isZero (a : Binary64) : Bool := a.exponent == 0 && a.fraction == 0

/-- Equality of IEEE 754: the zeros are equal and what is no number equals nothing. -/
def same (a b : Binary64) : Bool :=
  !a.isNaN && !b.isNaN && (a == b || (a.isZero && b.isZero))

/-- The order of IEEE 754. -/
def less (a b : Binary64) : Bool := decide (a.toFloat < b.toFloat)

/-- The sum, rounded to nearest. -/
def add (a b : Binary64) : Binary64 := ofFloat (a.toFloat + b.toFloat)

/-- The difference, rounded to nearest. -/
def sub (a b : Binary64) : Binary64 := ofFloat (a.toFloat - b.toFloat)

/-- The product, rounded to nearest. -/
def mul (a b : Binary64) : Binary64 := ofFloat (a.toFloat * b.toFloat)

/-- The significand `m` of a finite number whose size is `m · 2 ^ (scale - 1074)`. -/
def significand (a : Binary64) : Nat :=
  if a.exponent = 0 then a.fraction else a.fraction + 0x10000000000000

/-- The binary scale of a finite number, counted from the least one. -/
def scale (a : Binary64) : Nat := a.exponent - 1

/-- Tells whether the next smaller number is only half as far away as the next larger one. -/
def narrowBelow (a : Binary64) : Bool := a.fraction == 0 && 1 < a.exponent

end Binary64

end Hotswap
