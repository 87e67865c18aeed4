import Hotswap.Machine.Load

/-!
# Redefining classes

A redefinition changes the code of live classes and nothing else: the names, flags, superclasses
and members must stay. Every image of a batch is checked before the first class is changed.
-/

namespace Hotswap

/-- A live class and the image that is to replace its definition. -/
structure Replacement where
  cls : ClassId
  image : List UInt8
  deriving DecidableEq, Repr

/-- Tells whether two lists have the same members. -/
def sameMembers {α : Type} [DecidableEq α] (as bs : List α) : Bool :=
  as.all (bs.contains ·) && bs.all (as.contains ·)

namespace ClassDecl

/-- What a redefinition keeps of the fields: name, descriptor and whether the field is static. -/
def fieldSchema (c : ClassDecl) : List (String × String × Bool) :=
  c.fields.map fun f ↦ (f.name, f.type.descriptor, f.isStatic)

/-- What a redefinition keeps of the methods: name and descriptor. -/
def methodSchema (c : ClassDecl) : List (String × String) :=
  c.methods.map fun m ↦ (m.name, m.type.descriptor)

/-- The first thing besides code that a new definition would change. -/
def schemaChange? (current new : ClassDecl) : Option SchemaChange :=
  if new.name ≠ current.name then some (.name new.name)
  else if new.superName ≠ current.superName then some .superclass
  else if new.flags ≠ current.flags then some .flags
  else if !sameMembers new.fieldSchema current.fieldSchema then some .fields
  else if !sameMembers new.methodSchema current.methodSchema then some .methods
  else none

end ClassDecl

namespace Machine

/-- The definition that a replacement brings, if its class can take it. -/
def checkReplacement (m : Machine) (u : Replacement) : Except Error ClassDecl := do
  let decl ← m.readClass u.image
  let current := m.cls u.cls
  match current.decl.schemaChange? decl with
  | some change => throw (.machine (.unsupportedRedefinition current.name change))
  | none => pure decl

/-- Gives a class a new definition. -/
def swap (m : Machine) (id : ClassId) (decl : ClassDecl) : Machine :=
  m.modifyClass id fun c ↦ { c with decl, redefinitions := c.redefinitions + 1 }

/-- Redefines the classes of a batch, all or none. Gives the classes in the order of the batch. -/
def redefine (m : Machine) (batch : List Replacement) :
    Except Error (List ClassId × Machine) := do
  let decls ← batch.mapM m.checkReplacement
  pure (batch.map (·.cls), (batch.zip decls).foldl (fun m (u, decl) ↦ m.swap u.cls decl) m)

end Machine

end Hotswap
