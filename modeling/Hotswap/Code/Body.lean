import Hotswap.Code.Instruction

/-!
# Bodies

The code of a method with what it declares about its frame.
-/

namespace Hotswap

/-- The code of a method. -/
structure Body where
  /-- The number of locals, with the receiver and the arguments in front. -/
  maxLocals : UInt16
  /-- The declared depth of the stack. -/
  maxStack : UInt16
  code : List Instruction
  deriving DecidableEq, Repr

namespace Body

/-- Tells whether a body returns a value somewhere. -/
def returnsSomewhere (b : Body) : Bool := b.code.contains .retValue

/-- Another code in place of the whole old one; its depth is not known yet. -/
def replace (b : Body) (code : List Instruction) : Body := { b with code, maxStack := 0 }

end Body

end Hotswap
