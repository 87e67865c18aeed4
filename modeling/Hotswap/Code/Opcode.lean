import Hotswap.Code.Instruction

/-!
# Opcodes

The byte with which the encoding of an instruction begins, and its name.
-/

namespace Hotswap

/-- An opcode. -/
inductive Opcode where
  | nop
  | pop
  | dup
  | constNull
  | constInt
  | constLong
  | constDouble
  | constStr
  | load
  | store
  | add
  | sub
  | mul
  | cmpEq
  | cmpLt
  | jump
  | jumpIfZero
  | jumpIfNonZero
  | new
  | getField
  | putField
  | getStatic
  | putStatic
  | invokeVirtual
  | invokeStatic
  | callNative
  | ret
  | retValue
  deriving DecidableEq, Repr

namespace Opcode

/-- Every opcode, in the order of its byte. -/
def all : List Opcode :=
  [nop, pop, dup, constNull, constInt, constLong, constDouble, constStr, load, store, add, sub,
    mul, cmpEq, cmpLt, jump, jumpIfZero, jumpIfNonZero, new, getField, putField, getStatic,
    putStatic, invokeVirtual, invokeStatic, callNative, ret, retValue]

/-- The byte of an opcode. -/
def byte : Opcode → UInt8
  | nop => 0x00
  | pop => 0x01
  | dup => 0x02
  | constNull => 0x10
  | constInt => 0x11
  | constLong => 0x12
  | constDouble => 0x13
  | constStr => 0x14
  | load => 0x20
  | store => 0x21
  | add => 0x30
  | sub => 0x31
  | mul => 0x32
  | cmpEq => 0x33
  | cmpLt => 0x34
  | jump => 0x40
  | jumpIfZero => 0x41
  | jumpIfNonZero => 0x42
  | new => 0x50
  | getField => 0x51
  | putField => 0x52
  | getStatic => 0x53
  | putStatic => 0x54
  | invokeVirtual => 0x60
  | invokeStatic => 0x61
  | callNative => 0x62
  | ret => 0x70
  | retValue => 0x71

/-- The name of an opcode. -/
def name : Opcode → String
  | nop => "Nop"
  | pop => "Pop"
  | dup => "Dup"
  | constNull => "ConstNull"
  | constInt => "ConstInt"
  | constLong => "ConstLong"
  | constDouble => "ConstDouble"
  | constStr => "ConstStr"
  | load => "Load"
  | store => "Store"
  | add => "Add"
  | sub => "Sub"
  | mul => "Mul"
  | cmpEq => "CmpEq"
  | cmpLt => "CmpLt"
  | jump => "Jump"
  | jumpIfZero => "JumpIfZero"
  | jumpIfNonZero => "JumpIfNonZero"
  | new => "New"
  | getField => "GetField"
  | putField => "PutField"
  | getStatic => "GetStatic"
  | putStatic => "PutStatic"
  | invokeVirtual => "InvokeVirtual"
  | invokeStatic => "InvokeStatic"
  | callNative => "CallNative"
  | ret => "Return"
  | retValue => "ReturnValue"

/-- The opcode of a byte. -/
def ofByte? (b : UInt8) : Option Opcode := all.find? fun op ↦ op.byte == b

/-- The byte of an opcode gives the opcode back. -/
@[simp] theorem ofByte?_byte (op : Opcode) : ofByte? op.byte = some op := by
  cases op <;> decide

/-- An opcode is only found under its own byte. -/
theorem byte_of_ofByte? {b : UInt8} {op : Opcode} (h : ofByte? b = some op) : op.byte = b := by
  simpa using List.find?_some h

/-- The bytes in a closed range that are opcodes, with the opcode of each. -/
def inRange (first last : Nat) : List (UInt8 × Opcode) :=
  (List.range' first (last + 1 - first)).filterMap fun n ↦
    (ofByte? (UInt8.ofNat n)).map fun op ↦ (UInt8.ofNat n, op)

end Opcode

/-- The opcode of an operation on two numbers. -/
def Arithmetic.opcode : Arithmetic → Opcode
  | add => .add
  | sub => .sub
  | mul => .mul

/-- The opcode with which a literal is pushed. -/
def Constant.opcode : Constant → Opcode
  | null => .constNull
  | int _ => .constInt
  | long _ => .constLong
  | double _ => .constDouble
  | str _ => .constStr

/-- The opcode of a conditional branch. -/
def Condition.opcode : Condition → Opcode
  | zero => .jumpIfZero
  | nonZero => .jumpIfNonZero

/-- The opcode of an instruction. -/
def Instruction.opcode : Instruction → Opcode
  | nop => .nop
  | pop => .pop
  | dup => .dup
  | const c => c.opcode
  | load _ => .load
  | store _ => .store
  | arithmetic op => op.opcode
  | cmpEq => .cmpEq
  | cmpLt => .cmpLt
  | jump _ => .jump
  | jumpIf c _ => c.opcode
  | new _ => .new
  | getField _ => .getField
  | putField _ => .putField
  | getStatic _ => .getStatic
  | putStatic _ => .putStatic
  | invokeVirtual _ => .invokeVirtual
  | invokeStatic _ => .invokeStatic
  | callNative _ => .callNative
  | ret => .ret
  | retValue => .retValue

end Hotswap
