import Hotswap.Types.Basic

/-!
# Descriptors

The descriptor of a type is one letter for void and the primitive types, the class name with
slashes between `L` and a semicolon, and a bracket in front of the element's descriptor for an
array. The descriptor of a method type is the list of its parameters between parentheses, followed
by its result.
-/

namespace Hotswap

/-- The separator of a class name in a descriptor for the one in a dotted name. -/
def slashed (c : Char) : Char := if c = '.' then '/' else c

namespace Ty

/-- The characters of a type's descriptor. -/
def descriptorChars : Ty → List Char
  | void => ['V']
  | prim kind => [kind.letter]
  | cls name => 'L' :: (name.toList.map slashed ++ [';'])
  | array element => '[' :: element.descriptorChars

/-- The descriptor of a type. -/
def descriptor (t : Ty) : String := String.ofList t.descriptorChars

end Ty

/-- The characters of a parameter list. -/
def parameterChars (params : List Ty) : List Char :=
  '(' :: (params.flatMap Ty.descriptorChars ++ [')'])

/-- The descriptors of a parameter list between parentheses. -/
def parameterList (params : List Ty) : String := String.ofList (parameterChars params)

namespace MethodTy

/-- The characters of a method type's descriptor. -/
def descriptorChars (m : MethodTy) : List Char :=
  parameterChars m.params ++ m.result.descriptorChars

/-- The descriptor of a method type. -/
def descriptor (m : MethodTy) : String := String.ofList m.descriptorChars

end MethodTy

end Hotswap
