import Hotswap.Binary.Compressed
import Hotswap.Code.Opcode
import Hotswap.Types.DescriptorScan

/-!
# The encoding of instructions

An instruction is its opcode followed by its operands: numbers least significant byte first,
names and descriptors as counted strings.
-/

namespace Hotswap

/-- The encoding of several counted strings, one after the other. -/
def countedStrings : List String → Except Error (List UInt8)
  | [] => .ok []
  | s :: ss => do
    let first ← countedString s
    let others ← countedStrings ss
    pure (first ++ others)

/-- The encoding of a literal without its opcode. -/
def Constant.encode : Constant → Except Error (List UInt8)
  | null => .ok []
  | int v => .ok (word32Bytes v.toUInt32)
  | long v => .ok (word64Bytes v.toUInt64)
  | double v => .ok (word64Bytes v.bits)
  | str v => countedString v

/-- The encoding of a field reference. -/
def FieldRef.encode (f : FieldRef) : Except Error (List UInt8) :=
  countedStrings [f.owner, f.name, f.type.descriptor]

/-- The encoding of a method reference. -/
def MethodRef.encode (m : MethodRef) : Except Error (List UInt8) :=
  countedStrings [m.owner, m.name, m.type.descriptor]

/-- The encoding of a native reference. -/
def NativeRef.encode (n : NativeRef) : Except Error (List UInt8) :=
  countedStrings [n.name, n.type.descriptor]

namespace Instruction

/-- The encoding of the operands of an instruction. -/
def encodeOperands : Instruction → Except Error (List UInt8)
  | const c => c.encode
  | load i | store i => .ok (word16Bytes i)
  | jump t | jumpIf _ t => .ok (word32Bytes t)
  | new c => countedString c
  | getField f | putField f | getStatic f | putStatic f => f.encode
  | invokeVirtual m | invokeStatic m => m.encode
  | callNative n => n.encode
  | nop | pop | dup | arithmetic _ | cmpEq | cmpLt | ret | retValue => .ok []

/-- The encoding of an instruction. -/
def encode (i : Instruction) : Except Error (List UInt8) :=
  (i.opcode.byte :: ·) <$> i.encodeOperands

end Instruction

namespace Reader

/-- Reads a counted string that is the descriptor of a type. -/
def type : Reader Ty := do
  let d ← countedString
  ofExcept (Ty.ofDescriptor d)

/-- Reads a counted string that is the descriptor of a method type. -/
def methodType : Reader MethodTy := do
  let d ← countedString
  ofExcept (MethodTy.ofDescriptor d)

/-- Reads a field reference. -/
def fieldRef : Reader FieldRef := do
  let owner ← countedString
  let name ← countedString
  let ty ← type
  pure ⟨owner, name, ty⟩

/-- Reads a method reference. -/
def methodRef : Reader MethodRef := do
  let owner ← countedString
  let name ← countedString
  let ty ← methodType
  pure ⟨owner, name, ty⟩

/-- Reads a native reference. -/
def nativeRef : Reader NativeRef := do
  let name ← countedString
  let ty ← methodType
  pure ⟨name, ty⟩

/-- Reads the operands that follow an opcode. -/
def operands : Opcode → Reader Instruction
  | .nop => pure .nop
  | .pop => pure .pop
  | .dup => pure .dup
  | .constNull => pure (.const .null)
  | .constInt => (fun w ↦ .const (.int w.toInt32)) <$> word32
  | .constLong => (fun w ↦ .const (.long w.toInt64)) <$> word64
  | .constDouble => (fun w ↦ .const (.double ⟨w⟩)) <$> word64
  | .constStr => (fun s ↦ .const (.str s)) <$> countedString
  | .load => .load <$> word16
  | .store => .store <$> word16
  | .add => pure (.arithmetic .add)
  | .sub => pure (.arithmetic .sub)
  | .mul => pure (.arithmetic .mul)
  | .cmpEq => pure .cmpEq
  | .cmpLt => pure .cmpLt
  | .jump => .jump <$> word32
  | .jumpIfZero => .jumpIf .zero <$> word32
  | .jumpIfNonZero => .jumpIf .nonZero <$> word32
  | .new => .new <$> countedString
  | .getField => .getField <$> fieldRef
  | .putField => .putField <$> fieldRef
  | .getStatic => .getStatic <$> fieldRef
  | .putStatic => .putStatic <$> fieldRef
  | .invokeVirtual => .invokeVirtual <$> methodRef
  | .invokeStatic => .invokeStatic <$> methodRef
  | .callNative => .callNative <$> nativeRef
  | .ret => pure .ret
  | .retValue => pure .retValue

/-- Reads an instruction. -/
def instruction : Reader Instruction := do
  let b ← byte
  match Opcode.ofByte? b with
  | some op => operands op
  | none => do
    let pos ← position
    fail (.opcode b (pos - 1))

end Reader

end Hotswap
