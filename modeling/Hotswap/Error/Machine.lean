/-!
# Failures of the machine

What can go wrong while classes are linked, run and redefined, one constructor per cause.
-/

namespace Hotswap

/-- Why a class cannot be linked. -/
inductive LinkFault where
  /-- The chain of superclasses is too long, or comes back to itself. -/
  | tooDeep
  /-- The image found under the class name declares another class. -/
  | declares (name : String)
  /-- The definer takes no definitions. -/
  | refused (reason : String)
  deriving DecidableEq, Repr

/-- The wording of a link fault. -/
def LinkFault.message : LinkFault → String
  | tooDeep => "superclass chain too deep or circular"
  | declares n => s!"image declares {n}"
  | refused reason => reason

/-- What a method lookup found instead of a method of the kind it looked for. -/
inductive LookupMiss where
  /-- No class of the chain declares the method. -/
  | absent
  /-- An instance method was sought and the method is static. -/
  | isStatic
  /-- A static method was sought and the method is not static. -/
  | isInstance
  deriving DecidableEq, Repr

/-- What a lookup miss adds to the name of the method. -/
def LookupMiss.suffix : LookupMiss → String
  | absent => ""
  | isStatic => " (static)"
  | isInstance => " (not static)"

/-- What was expected and what was found instead. -/
inductive Mismatch where
  /-- A call brings another number of arguments than the method takes. -/
  | arguments (expected found : Nat)
  /-- A load or a store names a local that the frame does not have. -/
  | localIndex (index : UInt16)
  /-- Execution went past the last instruction of a method. -/
  | endOfCode (method : String)
  /-- The operands of an operation are not numbers of one kind. -/
  | operands (operation left right : String)
  /-- An abstract class was to be instantiated. -/
  | abstractClass (name : String)
  /-- A value is of another kind. -/
  | kind (expected found : String)
  deriving DecidableEq, Repr

/-- What was expected. -/
def Mismatch.expected : Mismatch → String
  | arguments n _ => s!"{n} arguments"
  | localIndex i => s!"local {i}"
  | endOfCode _ => "return"
  | operands op _ _ => s!"matching numeric operands for {op}"
  | abstractClass _ => "instantiable class"
  | kind e _ => e

/-- What was found. -/
def Mismatch.found : Mismatch → String
  | arguments _ n => s!"{n} arguments"
  | localIndex _ => "out of range"
  | endOfCode m => s!"end of {m}"
  | operands _ l r => s!"{l} and {r}"
  | abstractClass n => s!"abstract {n}"
  | kind _ f => f

/-- What a redefinition would change besides code. -/
inductive SchemaChange where
  | name (declared : String)
  | superclass
  | flags
  | fields
  | methods
  deriving DecidableEq, Repr

/-- The wording of a schema change. -/
def SchemaChange.message : SchemaChange → String
  | name n => s!"image declares {n}"
  | superclass => "superclass changed"
  | flags => "class flags changed"
  | fields => "fields added, removed or changed"
  | methods => "methods added or removed"

/-- Why the machine could not go on. -/
inductive MachineError where
  | classNotFound (name : String)
  | linkage (className : String) (fault : LinkFault)
  | noSuchMethod (className method : String) (miss : LookupMiss)
  | noSuchField (className field : String)
  | stackUnderflow (method : String)
  | typeMismatch (mismatch : Mismatch)
  | nullReference
  | callDepthExceeded (limit : Nat)
  | instructionLimit (limit : Nat)
  | abstractMethod (className method : String)
  | nativeNotFound (name : String)
  | nativeFailed (name message : String)
  | attachNotPermitted
  | unsupportedRedefinition (className : String) (change : SchemaChange)
  deriving DecidableEq, Repr

/-- The wording of a failure. -/
def MachineError.message : MachineError → String
  | classNotFound n => s!"Class not found - {n}"
  | linkage c f => s!"Cannot link {c}: " ++ f.message
  | noSuchMethod c m miss => s!"No method {m}" ++ miss.suffix ++ s!" in {c}"
  | noSuchField c f => s!"No field {f} in {c}"
  | stackUnderflow m => s!"Operand stack underflow in {m}"
  | typeMismatch m => "Type mismatch - expected " ++ m.expected ++ ", found " ++ m.found
  | nullReference => "Null reference"
  | callDepthExceeded n => s!"Call depth limit of {n} exceeded"
  | instructionLimit n => s!"Instruction limit of {n} exceeded"
  | abstractMethod c m => s!"Abstract method {c}.{m} invoked"
  | nativeNotFound n => s!"Native not registered - {n}"
  | nativeFailed n m => s!"Native {n} failed: {m}"
  | attachNotPermitted => "Self-attach is not permitted by the runtime configuration"
  | unsupportedRedefinition c change => s!"Unsupported redefinition of {c}: " ++ change.message

end Hotswap
