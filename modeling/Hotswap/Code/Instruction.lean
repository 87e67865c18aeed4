import Hotswap.Decimal.Binary64
import Hotswap.Types.Basic

/-!
# Instructions

The instructions of a stack machine. A branch target is the index of an instruction in the same
body. Every instruction has a fixed number of operands that it takes from the stack and of results
that it leaves there, and a kind of control flow.
-/

namespace Hotswap

/-- A literal. -/
inductive Constant where
  | null
  | int (value : Int32)
  | long (value : Int64)
  | double (value : Binary64)
  | str (value : String)
  deriving DecidableEq, Repr

/-- A field by the name of a class, its own name and its type. -/
structure FieldRef where
  owner : String
  name : String
  type : Ty
  deriving DecidableEq, Repr

/-- A method by the name of a class, its own name and its type. -/
structure MethodRef where
  owner : String
  name : String
  type : MethodTy
  deriving DecidableEq, Repr

/-- A native by its name and the type that its caller assumes. -/
structure NativeRef where
  name : String
  type : MethodTy
  deriving DecidableEq, Repr

/-- The operations on two numbers. -/
inductive Arithmetic where
  | add
  | sub
  | mul
  deriving DecidableEq, Repr

/-- The conditions of a branch on the value that it pops. -/
inductive Condition where
  | zero
  | nonZero
  deriving DecidableEq, Repr

/-- An instruction. -/
inductive Instruction where
  /-- Does nothing. -/
  | nop
  /-- Drops the top of the stack. -/
  | pop
  /-- Pushes the top of the stack once more. -/
  | dup
  /-- Pushes a literal. -/
  | const (c : Constant)
  /-- Pushes a local. -/
  | load (index : UInt16)
  /-- Pops into a local. -/
  | store (index : UInt16)
  /-- Combines two numbers; adding a string to anything concatenates. -/
  | arithmetic (op : Arithmetic)
  /-- Pushes one if the two popped values are equal, else zero. -/
  | cmpEq
  /-- Pushes one if the lower of the two popped numbers is the less, else zero. -/
  | cmpLt
  /-- Goes to another instruction. -/
  | jump (target : UInt32)
  /-- Goes to another instruction if the popped value meets the condition. -/
  | jumpIf (condition : Condition) (target : UInt32)
  /-- Pushes a new instance of a class. -/
  | new (className : String)
  /-- Pops an object and pushes one of its fields. -/
  | getField (field : FieldRef)
  /-- Pops a value and an object and stores the value in a field. -/
  | putField (field : FieldRef)
  /-- Pushes a static field. -/
  | getStatic (field : FieldRef)
  /-- Pops into a static field. -/
  | putStatic (field : FieldRef)
  /-- Calls a method of the object below the arguments. -/
  | invokeVirtual (method : MethodRef)
  /-- Calls a static method. -/
  | invokeStatic (method : MethodRef)
  /-- Calls a native. -/
  | callNative (native : NativeRef)
  /-- Leaves a method that returns no value. -/
  | ret
  /-- Leaves a method with the popped value. -/
  | retValue
  deriving DecidableEq, Repr

namespace Instruction

-- Whether an instruction is a load, a store or a branch is seen from its constructor. Deciding it
-- from the equality of instructions would try every index.

instance (i : Instruction) : Decidable (∀ index, i = .load index → False) :=
  decidable_of_iff (i.ctorIdx ≠ (load 0).ctorIdx) (by cases i <;> simp [Instruction.ctorIdx])

instance (i : Instruction) : Decidable (∀ index, i = .store index → False) :=
  decidable_of_iff (i.ctorIdx ≠ (store 0).ctorIdx) (by cases i <;> simp [Instruction.ctorIdx])

instance (i : Instruction) : Decidable (∀ target, i = .jump target → False) :=
  decidable_of_iff (i.ctorIdx ≠ (jump 0).ctorIdx) (by cases i <;> simp [Instruction.ctorIdx])

instance (i : Instruction) :
    Decidable (∀ condition target, i = .jumpIf condition target → False) :=
  decidable_of_iff (i.ctorIdx ≠ (jumpIf .zero 0).ctorIdx)
    (by cases i <;> simp [Instruction.ctorIdx])

end Instruction

/-- How control goes on after an instruction. -/
inductive Flow where
  /-- To the next instruction. -/
  | sequential
  /-- To the target. -/
  | unconditional
  /-- To the target or to the next instruction. -/
  | conditional
  /-- Out of the method. -/
  | leave
  deriving DecidableEq, Repr

namespace MethodTy

/-- The number of results on the stack of the caller. -/
def pushes (m : MethodTy) : Nat := if m.returnsValue then 1 else 0

end MethodTy

namespace Instruction

/-- The number of operands taken from the stack. -/
def pops : Instruction → Nat
  | nop | jump _ | ret | const _ | load _ | new _ | getStatic _ => 0
  | pop | dup | store _ | putStatic _ | jumpIf _ _ | retValue | getField _ => 1
  | arithmetic _ | cmpEq | cmpLt | putField _ => 2
  | invokeVirtual m => m.type.params.length + 1
  | invokeStatic m => m.type.params.length
  | callNative n => n.type.params.length

/-- The number of results left on the stack. -/
def pushes : Instruction → Nat
  | nop | jump _ | ret | pop | store _ | putStatic _ | jumpIf _ _ | retValue | putField _ => 0
  | const _ | load _ | new _ | getStatic _ | arithmetic _ | cmpEq | cmpLt | getField _ => 1
  | dup => 2
  | invokeVirtual m | invokeStatic m => m.type.pushes
  | callNative n => n.type.pushes

/-- How control goes on. -/
def flow : Instruction → Flow
  | jump _ => .unconditional
  | jumpIf _ _ => .conditional
  | ret | retValue => .leave
  | _ => .sequential

/-- The target of a branch. -/
def target? : Instruction → Option UInt32
  | jump t | jumpIf _ t => some t
  | _ => none

/-- Changes the target of a branch and nothing else. -/
def mapTarget (f : UInt32 → UInt32) : Instruction → Instruction
  | jump t => jump (f t)
  | jumpIf c t => jumpIf c (f t)
  | i => i

/-- Tells whether control can go on to the next instruction. -/
def fallsThrough (i : Instruction) : Bool :=
  match i.flow with
  | .sequential | .conditional => true
  | .unconditional | .leave => false

/-- Changing targets changes the target and keeps its absence. -/
@[simp] theorem target?_mapTarget (f : UInt32 → UInt32) (i : Instruction) :
    (i.mapTarget f).target? = i.target?.map f := by
  cases i <;> rfl

/-- Changing targets keeps the operands. -/
@[simp] theorem pops_mapTarget (f : UInt32 → UInt32) (i : Instruction) :
    (i.mapTarget f).pops = i.pops := by
  cases i <;> rfl

/-- Changing targets keeps the results. -/
@[simp] theorem pushes_mapTarget (f : UInt32 → UInt32) (i : Instruction) :
    (i.mapTarget f).pushes = i.pushes := by
  cases i <;> rfl

/-- Changing targets keeps the control flow. -/
@[simp] theorem flow_mapTarget (f : UInt32 → UInt32) (i : Instruction) :
    (i.mapTarget f).flow = i.flow := by
  cases i <;> rfl

/-- Changing targets twice is changing them once. -/
@[simp] theorem mapTarget_mapTarget (f g : UInt32 → UInt32) (i : Instruction) :
    (i.mapTarget f).mapTarget g = i.mapTarget (g ∘ f) := by
  cases i <;> rfl

/-- An instruction has a target exactly when it branches. -/
theorem isSome_target? (i : Instruction) :
    i.target?.isSome = (i.flow == .unconditional || i.flow == .conditional) := by
  cases i <;> rfl

end Instruction

end Hotswap
