import Hotswap.Code.Body
import Hotswap.Types.Descriptor

/-!
# Classes

A class has flags, a name, perhaps a superclass, fields and methods. A method that is neither
abstract nor native has a body: its code, the number of its locals and the depth of its stack.
-/

namespace Hotswap

namespace Flag

/-- Visible everywhere. -/
def visible : UInt16 := 0x0001

/-- Visible only inside the class. -/
def confidential : UInt16 := 0x0002

/-- Visible to subclasses. -/
def inherited : UInt16 := 0x0004

/-- Belongs to the class and not to its instances. -/
def static : UInt16 := 0x0008

/-- Can be neither extended, reassigned nor overridden. -/
def final : UInt16 := 0x0010

/-- Implemented by the machine. -/
def native : UInt16 := 0x0100

/-- Declares an interface. -/
def interface : UInt16 := 0x0200

/-- Cannot be instantiated, or has no implementation. -/
def abstract : UInt16 := 0x0400

/-- The flags that mean something on a class. -/
def ofClass : UInt16 := visible ||| final ||| interface ||| abstract

/-- The flags that mean something on a member. -/
def ofMember : UInt16 :=
  visible ||| confidential ||| inherited ||| static ||| final ||| native ||| abstract

/-- Tells whether one of the flags of a mask is set. -/
def any (flags mask : UInt16) : Bool := flags &&& mask != 0

/-- Tells whether no flag outside a mask is set. -/
def within (flags mask : UInt16) : Bool := flags &&& mask == flags

end Flag

/-- A field declaration. -/
structure FieldDecl where
  flags : UInt16
  name : String
  type : Ty
  deriving DecidableEq, Repr

/-- Tells whether a field belongs to the class. -/
def FieldDecl.isStatic (f : FieldDecl) : Bool := Flag.any f.flags Flag.static

/-- A method declaration. -/
structure MethodDecl where
  flags : UInt16
  name : String
  type : MethodTy
  body : Option Body
  deriving DecidableEq, Repr

namespace MethodDecl

/-- Tells whether a method has no receiver. -/
def isStatic (m : MethodDecl) : Bool := Flag.any m.flags Flag.static

/-- Tells whether a method is implemented by the machine. -/
def isNative (m : MethodDecl) : Bool := Flag.any m.flags Flag.native

/-- Tells whether a method has no implementation in its class. -/
def isAbstract (m : MethodDecl) : Bool := Flag.any m.flags Flag.abstract

/-- Tells whether a method must not have a body. -/
def lacksBody (m : MethodDecl) : Bool := Flag.any m.flags (Flag.abstract ||| Flag.native)

/-- The number of locals that the receiver and the arguments take; it stops at the greatest number
of locals that a body can declare. -/
def argumentSlots (m : MethodDecl) : Nat :=
  min 65535 (m.type.params.length + if m.isStatic then 0 else 1)

/-- The name and the descriptor of a method. -/
def signature (m : MethodDecl) : String := m.name ++ m.type.descriptor

/-- Tells whether a method goes by a name and a type. -/
def goesBy (m : MethodDecl) (name : String) (type : MethodTy) : Bool :=
  m.name == name && m.type == type

/-- The body of a method whose locals are the receiver and the arguments. -/
def bodyOf (m : MethodDecl) (code : List Instruction) : Body :=
  ⟨UInt16.ofNat m.argumentSlots, 0, code⟩

/-- A method with code, whose locals are the receiver and the arguments. -/
def withCode (flags : UInt16) (name : String) (type : MethodTy) (code : List Instruction) :
    MethodDecl :=
  let m : MethodDecl := ⟨flags, name, type, none⟩
  { m with body := some (m.bodyOf code) }

end MethodDecl

/-- A class declaration. -/
structure ClassDecl where
  flags : UInt16
  name : String
  superName : Option String
  fields : List FieldDecl
  methods : List MethodDecl
  deriving DecidableEq, Repr

namespace ClassDecl

/-- Tells whether a class cannot be instantiated. -/
def isAbstract (c : ClassDecl) : Bool := Flag.any c.flags (Flag.interface ||| Flag.abstract)

/-- The first method with a name and a type. -/
def method? (c : ClassDecl) (name : String) (type : MethodTy) : Option MethodDecl :=
  c.methods.find? fun m ↦ m.goesBy name type

/-- The fields that belong to the class. -/
def staticFields (c : ClassDecl) : List FieldDecl := c.fields.filter FieldDecl.isStatic

/-- The fields that belong to each instance. -/
def instanceFields (c : ClassDecl) : List FieldDecl := c.fields.filter (!·.isStatic)

end ClassDecl

end Hotswap
