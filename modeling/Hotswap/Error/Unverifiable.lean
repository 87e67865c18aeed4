/-!
# Unverifiable classes

What structural verification can find wrong with a class, one constructor per cause.
-/

namespace Hotswap

/-- Why a class does not verify. -/
inductive Unverifiable where
  /-- Two fields have one name. -/
  | duplicateField (name : String)
  /-- Two methods have one name and one signature. -/
  | duplicateMethod
  /-- A method that is abstract or native has code. -/
  | unexpectedBody
  /-- A class that can be instantiated has an abstract method. -/
  | abstractInConcrete
  /-- A method that is neither abstract nor native has no code. -/
  | missingBody
  /-- The declared stack size is less than the depth that the code reaches. -/
  | declaredStack (declared reached : UInt16)
  /-- A body has no instruction. -/
  | emptyBody
  /-- The locals do not cover the arguments. -/
  | fewLocals (maxLocals : UInt16) (slots : Nat)
  /-- A load or a store names a local beyond the declared ones. -/
  | localIndex (index : UInt16) (pc : Nat) (maxLocals : UInt16)
  /-- A method that returns a value returns none here. -/
  | returnWithoutValue (pc : Nat)
  /-- A method that returns no value returns one here. -/
  | returnWithValue (pc : Nat)
  /-- A branch leads past the last instruction. -/
  | branchTarget (pc : Nat) (target : UInt32)
  /-- An instruction needs more operands than there are. -/
  | underflow (pc : Nat) (instruction : String) (needed found : Nat)
  /-- Execution can go on past the last instruction. -/
  | fallsOff (pc : Nat)
  /-- Two paths reach an instruction with different depths. -/
  | inconsistentDepth (pc first second : Nat)
  /-- The depth does not fit in 16 bits. -/
  | tooDeep (depth : Nat)
  deriving DecidableEq, Repr

/-- The wording of a cause. -/
def Unverifiable.message : Unverifiable → String
  | duplicateField n => s!"duplicate field {n}"
  | duplicateMethod => "duplicate method"
  | unexpectedBody => "abstract or native method has a body"
  | abstractInConcrete => "abstract method in a concrete class"
  | missingBody => "concrete method has no body"
  | declaredStack d r => s!"declared max_stack {d} but the body reaches {r}"
  | emptyBody => "empty body"
  | fewLocals m k => s!"max_locals {m} is smaller than the {k} argument slots"
  | localIndex i pc m => s!"local {i} at {pc} is out of range (max_locals {m})"
  | returnWithoutValue pc => s!"return without value at {pc}"
  | returnWithValue pc => s!"return with value at {pc} in a void method"
  | branchTarget pc t => s!"branch at {pc} targets {t} past the end"
  | underflow pc i n f => s!"stack underflow at {pc}: {i} needs {n}, has {f}"
  | fallsOff pc => s!"execution falls off the end after {pc}"
  | inconsistentDepth pc a b => s!"inconsistent stack depth at {pc}: {a} vs {b}"
  | tooDeep d => s!"stack depth {d} too large"

end Hotswap
