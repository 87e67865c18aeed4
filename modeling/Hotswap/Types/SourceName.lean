import Hotswap.Text.Blank
import Hotswap.Types.DescriptorScan

/-!
# Type names as written in source

A type name is a primitive keyword or a dotted class name, followed by a pair of brackets for each
array dimension, with blanks around the name and after each pair.
-/

namespace Hotswap

open Text

/-- Tells whether a character may stand in a class name written in source. -/
def isNameChar (c : Char) : Bool :=
  !isBlank c && c != ';' && c != '[' && c != ']' && c != '/' && c != '(' && c != ')'

/-- Tells whether a dotted name has no empty segment and only characters of names. -/
def isQualifiedName (name : List Char) : Bool :=
  (DescriptorScan.segments '.' name).all fun s ↦ !s.isEmpty && s.all isNameChar

/-- What is left of a text that is written backwards, once the blanks and the pair of brackets at
its end are cut off, if it ends so. -/
def beforeBrackets? (backwards : List Char) : Option (List Char) :=
  match trimFront backwards with
  | ']' :: '[' :: rest => some rest
  | _ => none

/-- What stands before the brackets is shorter. -/
theorem length_beforeBrackets {cs rest : List Char} (h : beforeBrackets? cs = some rest) :
    rest.length < cs.length := by
  unfold beforeBrackets? at h
  split at h
  · next r hr =>
    cases h
    have := length_trimFront_le cs
    rw [hr] at this
    simp only [List.length_cons] at this
    omega
  · cases h

/-- The type that a name without brackets and outer blanks names. -/
def Ty.ofBaseName (cs : List Char) : Except Error Ty :=
  let name := String.ofList cs
  match Primitive.ofKeyword? name with
  | some kind => .ok (.prim kind)
  | none =>
    if name == "void" || !isQualifiedName cs then .error (.malformed (.typeName name))
    else .ok (.cls name)

/-- The type named by a text that is written backwards and has no blanks in front. -/
def Ty.ofBackwards (cs : List Char) : Except Error Ty :=
  match _h : beforeBrackets? cs with
  | some element => (Ty.ofBackwards element).map .array
  | none => Ty.ofBaseName (trimFront cs).reverse
termination_by cs.length
decreasing_by exact length_beforeBrackets _h

/-- The type that a source name names. -/
def Ty.ofSourceName (name : String) : Except Error Ty :=
  Ty.ofBackwards (trimFront name.toList).reverse

end Hotswap
