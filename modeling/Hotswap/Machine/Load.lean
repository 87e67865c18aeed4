import Hotswap.Machine.Basic

/-!
# Loading and defining classes

A class of the system namespace is loaded from the classpath when its name is first needed, after
its superclass. Defining a class from an image puts it into a namespace of its own; its superclass
is one of the system namespace. Where anything fails no class is added.
-/

namespace Hotswap

/-- The greatest number of superclasses that loading a class climbs. -/
def maxAncestors : Nat := 64

namespace Machine

/-- The class that an image holds, verified if the machine verifies. -/
def readClass (m : Machine) (image : List UInt8) : Except Error ClassDecl := do
  let decl ← ClassDecl.decode image
  if m.config.verifyOnDefine then decl.verify
  pure decl

/-- The class that the classpath has under a name. -/
def findClass (m : Machine) (lib : Library) (name : String) : Except Error ClassDecl := do
  match ← lib.find name m.classpath with
  | none => throw (.machine (.classNotFound name))
  | some image => do
    let decl ← m.readClass image
    if decl.name = name then pure decl
    else throw (.machine (.linkage name (.declares decl.name)))

/-- Loads a class of the system namespace, climbing at most `levels` classes that are not loaded. -/
def loadWithin (lib : Library) : Nat → Machine → String → Except Error (ClassId × Machine)
  | levels, m, name =>
    match m.findLoaded name with
    | some id => .ok (id, m)
    | none =>
      match levels with
      | 0 => .error (.machine (.linkage name .tooDeep))
      | levels + 1 => do
        let decl ← m.findClass lib name
        let (ancestors, m) ← match decl.superName with
          | none => pure ([], m)
          | some superName => do
            let (id, m) ← loadWithin lib levels m superName
            pure (m.chain id, m)
        let (m, id) := m.addClass (.link 0 decl ancestors)
        pure (id, { m with system := m.system.put name id })

/-- The class of the system namespace under a name, loaded if it is not yet. -/
def load (m : Machine) (lib : Library) (name : String) : Except Error (ClassId × Machine) :=
  loadWithin lib (maxAncestors + 1) m name

/-- The class that a name means in the code of a class: that class itself under its own name, else
one of the system namespace. -/
def resolve (m : Machine) (lib : Library) (context : ClassId) (name : String) :
    Except Error (ClassId × Machine) :=
  if m.className context = name then .ok (context, m) else m.load lib name

/-- Defines a class from an image, in a namespace of its own. -/
def define (m : Machine) (lib : Library) (image : List UInt8) :
    Except Error (ClassId × Machine) := do
  let decl ← m.readClass image
  let (ancestors, m) ← match decl.superName with
    | none => pure ([], m)
    | some superName => do
      let (id, m) ← m.load lib superName
      pure (m.chain id, m)
  let (m, id) := m.addClass (.link m.nextLoader decl ancestors)
  pure (id, { m with defined := m.defined ++ [id], nextLoader := m.nextLoader + 1 })

end Machine

end Hotswap
