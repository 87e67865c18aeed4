/-!
# Types and method types

A type is void, one of eight primitive types, a class by its dotted name, or an array. A method
type lists the parameter types, without the receiver, and the result type.
-/

namespace Hotswap

/-- The primitive value types. -/
inductive Primitive where
  | boolean
  | byte
  | char
  | short
  | int
  | long
  | float
  | double
  deriving DecidableEq, Repr

namespace Primitive

/-- Every primitive type. -/
def all : List Primitive := [boolean, byte, char, short, int, long, float, double]

/-- The keyword of a primitive type. -/
def keyword : Primitive → String
  | boolean => "boolean"
  | byte => "byte"
  | char => "char"
  | short => "short"
  | int => "int"
  | long => "long"
  | float => "float"
  | double => "double"

/-- The keyword of a primitive type with a capital letter. -/
def title (p : Primitive) : String := p.keyword.capitalize

/-- The letter of a primitive type in a descriptor. -/
def letter : Primitive → Char
  | boolean => 'Z'
  | byte => 'B'
  | char => 'C'
  | short => 'S'
  | int => 'I'
  | long => 'J'
  | float => 'F'
  | double => 'D'

/-- The primitive type that a keyword names. -/
def ofKeyword? (s : String) : Option Primitive := all.find? fun p ↦ p.keyword == s

/-- The primitive type that a letter stands for. -/
def ofLetter? (c : Char) : Option Primitive := all.find? fun p ↦ p.letter == c

/-- A keyword names its own type. -/
theorem ofKeyword?_keyword (p : Primitive) : ofKeyword? p.keyword = some p := by
  cases p <;> decide

end Primitive

/-- A type. Void is a type only as the result of a method; the type itself does not enforce it. -/
inductive Ty where
  | void
  | prim (kind : Primitive)
  | cls (name : String)
  | array (element : Ty)
  deriving DecidableEq, Repr, Inhabited

namespace Ty

/-- Tells whether a type is one of the eight primitive ones. -/
def isPrimitive : Ty → Bool
  | prim _ => true
  | _ => false

/-- Tells whether a type is a class or an array. -/
def isReference : Ty → Bool
  | cls _ | array _ => true
  | _ => false

/-- Tells whether a type is void. -/
def isVoid : Ty → Bool
  | void => true
  | _ => false

/-- The class at the bottom of a type, through all array dimensions. -/
def className? : Ty → Option String
  | cls name => some name
  | array element => element.className?
  | _ => none

/-- The number of array dimensions. -/
def dimensions : Ty → Nat
  | array element => element.dimensions + 1
  | _ => 0

/-- The type below all array dimensions. -/
def bottom : Ty → Ty
  | array element => element.bottom
  | t => t

/-- An array type of some dimensions. -/
def arrays (t : Ty) : Nat → Ty
  | 0 => t
  | n + 1 => array (t.arrays n)

/-- The name of a type as it is written in source. -/
def sourceName : Ty → String
  | void => "void"
  | prim kind => kind.keyword
  | cls name => name
  | array element => element.sourceName ++ "[]"

/-- A type is its bottom in its dimensions. -/
theorem arrays_bottom_dimensions (t : Ty) : t.bottom.arrays t.dimensions = t := by
  induction t with
  | array e ih => simp [bottom, dimensions, arrays, ih]
  | _ => rfl

end Ty

/-- A method type. -/
structure MethodTy where
  params : List Ty
  result : Ty
  deriving DecidableEq, Repr, Inhabited

/-- Tells whether a method leaves a value on the stack of its caller. -/
def MethodTy.returnsValue (m : MethodTy) : Bool := !m.result.isVoid

end Hotswap
