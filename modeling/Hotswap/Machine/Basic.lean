import Hotswap.Class.Verify
import Hotswap.Machine.Value
import Hotswap.Pool.Source
import Hotswap.Table

/-!
# Machine state

The classes of a machine, its objects, and the names of the classes of the system namespace. A
class is named by its number, so that a redefined class is still the same one and two classes of
one name are different.
-/

namespace Hotswap

/-- How much one invocation may execute. -/
structure Limits where
  /-- The number of instructions over all nested calls; zero for no limit. -/
  maxInstructions : Nat
  /-- The number of calls that may be active at once. -/
  maxCallDepth : Nat
  deriving DecidableEq, Repr

/-- How a machine is set up. -/
structure Config where
  limits : Limits
  /-- Whether the machine grants redefinition to the process that it runs in. -/
  allowSelfAttach : Bool
  /-- Whether classes are verified when they are loaded, defined or redefined. -/
  verifyOnDefine : Bool
  deriving DecidableEq, Repr

namespace Config

/-- Generous limits; attaching is allowed. -/
def standard : Config := ⟨⟨1000000, 256⟩, true, true⟩

/-- Tight limits; attaching is refused. -/
def strict : Config := ⟨⟨100000, 64⟩, false, true⟩

/-- No limit on instructions; attaching is allowed. -/
def permissive : Config := ⟨⟨0, 4096⟩, true, true⟩

end Config

/-- A class of a machine. -/
structure LiveClass where
  name : String
  /-- The namespace: zero for the system namespace, else a number that no other class has. A number
  cannot wrap: each one that was given out is held by a class, and a machine has no room for `2^64`
  classes. -/
  loader : Nat
  /-- The superclass, its superclass and so on. -/
  ancestors : List ClassId
  /-- The current definition. -/
  decl : ClassDecl
  statics : Table String Value
  redefinitions : UInt32
  deriving DecidableEq, Repr

instance : Inhabited LiveClass := ⟨⟨"", 0, [], ⟨0, "", none, [], []⟩, .empty, 0⟩⟩

namespace LiveClass

/-- The superclass. -/
def superclass? (c : LiveClass) : Option ClassId := c.ancestors.head?

/-- Tells whether a class is of the system namespace. -/
def isSystem (c : LiveClass) : Bool := c.loader == 0

/-- The static fields of a definition with the values that they begin with. -/
def initialStatics (decl : ClassDecl) : Table String Value :=
  .ofList (decl.staticFields.map fun f ↦ (f.name, Value.defaultFor f.type))

/-- A class that has just been linked. -/
def link (loader : Nat) (decl : ClassDecl) (ancestors : List ClassId) : LiveClass :=
  ⟨decl.name, loader, ancestors, decl, initialStatics decl, 0⟩

/-- The value of a static field that the class itself declares. -/
def getStatic (c : LiveClass) (field : String) : Except MachineError Value :=
  match c.statics.get? field with
  | some v => .ok v
  | none => .error (.noSuchField c.name field)

end LiveClass

/-- An object. -/
structure Instance where
  cls : ClassId
  fields : Table String Value
  deriving DecidableEq, Repr

instance : Inhabited Instance := ⟨⟨default, .empty⟩⟩

/-- A machine. -/
structure Machine where
  config : Config
  classpath : Classpath
  /-- Every class, in the order in which the classes were linked. -/
  classes : Array LiveClass
  /-- The classes of the system namespace by name. -/
  system : Table String ClassId
  /-- The classes that were defined from images, each in a namespace of its own. -/
  defined : List ClassId
  /-- Every object, in the order in which the objects were made. -/
  objects : Array Instance
  /-- The namespace of the class that is defined next: one more than there are defined classes, all
  of which the machine holds, so that it stays below `2^64`. -/
  nextLoader : Nat
  deriving Repr

namespace Machine

/-- A machine without classes. -/
def new (config : Config) (classpath : Classpath) : Machine :=
  ⟨config, classpath, #[], .empty, [], #[], 1⟩

/-- The class of a number. -/
def cls (m : Machine) (id : ClassId) : LiveClass := m.classes.getD id.index default

/-- The object of a number. -/
def object (m : Machine) (id : ObjectId) : Instance := m.objects.getD id.index default

/-- The name of a class. -/
def className (m : Machine) (id : ClassId) : String := (m.cls id).name

/-- The text of a value. That of an object is the name of its class and the address at which the
object lies. -/
def text (m : Machine) (address : ObjectId → Nat) : Value → String
  | .ref o => m.className (m.object o).cls ++ "@0x" ++ String.ofList (Nat.toDigits 16 (address o))
  | v => v.text

/-- A class and its ancestors, upwards. -/
def chain (m : Machine) (id : ClassId) : List ClassId := id :: (m.cls id).ancestors

/-- Tells whether a class is another one or inherits from it. -/
def isSubclass (m : Machine) (id ancestor : ClassId) : Bool := (m.chain id).contains ancestor

/-- The number of classes that were loaded or defined. -/
def classCount (m : Machine) : Nat := m.system.size + m.defined.length

/-- The class of the system namespace that is loaded under a name. -/
def findLoaded (m : Machine) (name : String) : Option ClassId := m.system.get? name

/-- The method of a name and a type that a class declares or inherits, with the class that declares
it. -/
def lookupMethod (m : Machine) (id : ClassId) (name : String) (type : MethodTy) :
    Option (ClassId × MethodDecl) :=
  (m.chain id).findSome? fun c ↦ ((m.cls c).decl.method? name type).map (c, ·)

/-- The fields of the instances of a class, those of ancestors first. -/
def instanceFields (m : Machine) (id : ClassId) : List FieldDecl :=
  (m.chain id).reverse.flatMap fun c ↦ (m.cls c).decl.instanceFields

/-- The class of the chain that holds a static field. -/
def staticHolder (m : Machine) (id : ClassId) (field : String) : Option ClassId :=
  (m.chain id).find? fun c ↦ (m.cls c).statics.contains field

/-- Changes a class. -/
def modifyClass (m : Machine) (id : ClassId) (f : LiveClass → LiveClass) : Machine :=
  { m with classes := m.classes.modify id.index f }

/-- Changes an object. -/
def modifyObject (m : Machine) (id : ObjectId) (f : Instance → Instance) : Machine :=
  { m with objects := m.objects.modify id.index f }

/-- The value of a static field that a class declares or inherits. -/
def getStatic (m : Machine) (id : ClassId) (field : String) : Except MachineError Value :=
  match m.staticHolder id field with
  | some owner => (m.cls owner).getStatic field
  | none => .error (.noSuchField (m.className id) field)

/-- Stores into a static field that the class itself declares. -/
def setStatic (id : ClassId) (field : String) (v : Value) (m : Machine) :
    Except MachineError Unit × Machine :=
  if (m.cls id).statics.contains field then
    (.ok (), m.modifyClass id fun c ↦ { c with statics := c.statics.put field v })
  else (.error (.noSuchField (m.className id) field), m)

/-- The value of a field of an object. -/
def getField (m : Machine) (id : ObjectId) (field : String) : Except MachineError Value :=
  let o := m.object id
  match o.fields.get? field with
  | some v => .ok v
  | none => .error (.noSuchField (m.className o.cls) field)

/-- Stores into a field of an object. -/
def setField (id : ObjectId) (field : String) (v : Value) (m : Machine) :
    Except MachineError Unit × Machine :=
  if (m.object id).fields.contains field then
    (.ok (), m.modifyObject id fun o ↦ { o with fields := o.fields.put field v })
  else (.error (.noSuchField (m.className (m.object id).cls) field), m)

/-- Adds a linked class. -/
def addClass (m : Machine) (c : LiveClass) : Machine × ClassId :=
  let id := ⟨m.classes.size⟩
  ({ m with classes := m.classes.push c }, id)

/-- The fields of a new instance of a class, with their first values. -/
def initialFields (m : Machine) (id : ClassId) : Table String Value :=
  .ofList ((m.instanceFields id).map fun f ↦ (f.name, Value.defaultFor f.type))

/-- Adds an object. -/
def addObject (m : Machine) (o : Instance) : Machine × ObjectId :=
  let id := ⟨m.objects.size⟩
  ({ m with objects := m.objects.push o }, id)

/-- Makes an object of a class that can be instantiated. -/
def allocate (id : ClassId) (m : Machine) : Except MachineError ObjectId × Machine :=
  if (m.cls id).decl.isAbstract then
    (.error (.typeMismatch (.abstractClass (m.className id))), m)
  else
    let fields := m.initialFields id
    let (m, object) := m.addObject ⟨id, fields⟩
    (.ok object, m)

end Machine

end Hotswap
