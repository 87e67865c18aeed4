import Hotswap.Class.Basic
import Hotswap.Code.Depth
import Hotswap.Error.Basic

/-!
# Structural verification

A class verifies when its members are distinct, its methods have bodies exactly where they should,
and every body keeps to its locals, its return type and its declared stack depth. Other classes are
not looked at.
-/

namespace Hotswap

namespace ClassDecl

/-- An error about the class itself. -/
def refusal (c : ClassDecl) (cause : Unverifiable) : Error := .verification c.name "" cause

/-- An error about one of the methods. -/
def methodRefusal (c : ClassDecl) (m : MethodDecl) (cause : Unverifiable) : Error :=
  .verification c.name m.signature cause

/-- The first name that has stood before. -/
def duplicateName? (seen : List String) : List FieldDecl → Option String
  | [] => none
  | f :: rest => if seen.contains f.name then some f.name else duplicateName? (f.name :: seen) rest

/-- Checks that no two fields have one name. -/
def checkFields (c : ClassDecl) : Except Error Unit :=
  match duplicateName? [] c.fields with
  | some name => .error (c.refusal (.duplicateField name))
  | none => .ok ()

/-- The depth that the body of a method reaches, as an error of the class where it has none. -/
def reachedDepth (c : ClassDecl) (m : MethodDecl) (b : Body) : Except Error UInt16 :=
  (b.reachedDepth m.argumentSlots m.type.returnsValue).mapError (c.methodRefusal m)

/-- The body of a method that should have one; nothing for a method that should not. -/
def checkedBody (c : ClassDecl) (m : MethodDecl) : Except Error (Option Body) :=
  if m.lacksBody then
    if m.body.isSome then .error (c.methodRefusal m .unexpectedBody)
    else if m.isAbstract && !c.isAbstract then .error (c.methodRefusal m .abstractInConcrete)
    else .ok none
  else
    match m.body with
    | some b => .ok (some b)
    | none => .error (c.methodRefusal m .missingBody)

/-- Checks a method, apart from its being the only one of its name and type. -/
def checkMethod (c : ClassDecl) (m : MethodDecl) : Except Error Unit := do
  match ← c.checkedBody m with
  | none => pure ()
  | some b => do
    let reached ← c.reachedDepth m b
    if b.maxStack < reached then throw (c.methodRefusal m (.declaredStack b.maxStack reached))
    else pure ()

/-- Checks methods in turn; `seen` are the ones before. -/
def checkMethods (c : ClassDecl) (seen : List MethodDecl) : List MethodDecl → Except Error Unit
  | [] => .ok ()
  | m :: rest =>
    if seen.any fun s ↦ s.goesBy m.name m.type then .error (c.methodRefusal m .duplicateMethod)
    else
      match c.checkMethod m with
      | .ok _ => checkMethods c (m :: seen) rest
      | .error e => .error e

/-- Verifies a class. -/
def verify (c : ClassDecl) : Except Error Unit := do
  c.checkFields
  c.checkMethods [] c.methods

/-- A method whose body declares the depth that it reaches. -/
def withReachedDepth (c : ClassDecl) (m : MethodDecl) : Except Error MethodDecl :=
  match m.body with
  | none => .ok m
  | some b =>
    (c.reachedDepth m b).map fun reached ↦ { m with body := some { b with maxStack := reached } }

/-- The class in which every body declares the depth that it reaches. -/
def withReachedDepths (c : ClassDecl) : Except Error ClassDecl :=
  (c.methods.mapM c.withReachedDepth).map fun methods ↦ { c with methods }

end ClassDecl

end Hotswap
