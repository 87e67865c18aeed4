import Hotswap.Class.Basic
import Hotswap.Code.Codec

/-!
# Class images

The image of a class begins with a mark and a version. Counted lists of fields and of methods
follow the header; a truth value tells whether a superclass and whether a body follows. Nothing may
stand behind the last method.
-/

namespace Hotswap

/-- The mark with which an image begins. -/
def imageMagic : UInt32 := 0x4C435054

/-- The version of the format. -/
def imageVersion : UInt16 := 1

/-- The encodings of the items of a list, one after the other. -/
def encodeAll {α : Type} (encode : α → Except Error (List UInt8)) (items : List α) :
    Except Error (List UInt8) :=
  List.flatten <$> items.mapM encode

/-- The count of a list followed by the encodings of its items. -/
def encodeCounted {α : Type} (encode : α → Except Error (List UInt8)) (items : List α) :
    Except Error (List UInt8) := do
  let count ← compressedCount items.length
  let entries ← encodeAll encode items
  pure (count ++ entries)

/-- A truth value followed by the encoding of an item, if there is one. -/
def encodeOptional {α : Type} (encode : α → Except Error (List UInt8)) :
    Option α → Except Error (List UInt8)
  | none => .ok [booleanByte false]
  | some a => (booleanByte true :: ·) <$> encode a

/-- The encoding of a field. -/
def FieldDecl.encode (f : FieldDecl) : Except Error (List UInt8) := do
  let strings ← countedStrings [f.name, f.type.descriptor]
  pure (word16Bytes f.flags ++ strings)

/-- The encoding of a body. -/
def Body.encode (b : Body) : Except Error (List UInt8) := do
  let locals ← compressedCount b.maxLocals.toNat
  let stack ← compressedCount b.maxStack.toNat
  let code ← encodeCounted Instruction.encode b.code
  pure (locals ++ stack ++ code)

/-- The encoding of a method. -/
def MethodDecl.encode (m : MethodDecl) : Except Error (List UInt8) := do
  let strings ← countedStrings [m.name, m.type.descriptor]
  let body ← encodeOptional Body.encode m.body
  pure (word16Bytes m.flags ++ strings ++ body)

/-- The image of a class. -/
def ClassDecl.encode (c : ClassDecl) : Except Error (List UInt8) := do
  let name ← countedString c.name
  let superName ← encodeOptional countedString c.superName
  let fields ← encodeCounted FieldDecl.encode c.fields
  let methods ← encodeCounted MethodDecl.encode c.methods
  pure (word32Bytes imageMagic ++ word16Bytes imageVersion ++ word16Bytes c.flags ++ name ++
    superName ++ fields ++ methods)

namespace Reader

/-- Reads a count and as many items. -/
def counted {α : Type} (read : Reader α) : Reader (List α) := do
  let n ← count
  times read n

/-- Reads a truth value and, if it is true, an item. -/
def optional {α : Type} (read : Reader α) : Reader (Option α) := do
  if ← boolean then some <$> read else pure none

/-- Reads the flags of a member. -/
def memberFlags : Reader UInt16 := do
  let flags ← word16
  if Flag.within flags Flag.ofMember then pure flags else fail (.memberFlags flags)

/-- Reads a field. -/
def field : Reader FieldDecl := do
  let flags ← memberFlags
  let name ← countedString
  let ty ← type
  pure ⟨flags, name, ty⟩

/-- Reads a compressed number that must fit in 16 bits. -/
def limited (cause : Nat → Malformed) : Reader UInt16 := do
  let v ← compressed
  if v < UInt16.size then pure (UInt16.ofNat v) else fail (cause v)

/-- Reads a body. -/
def body : Reader Body := do
  let maxLocals ← limited .localsOutOfRange
  let maxStack ← limited .stackOutOfRange
  let code ← counted instruction
  pure ⟨maxLocals, maxStack, code⟩

/-- Reads a method. -/
def method : Reader MethodDecl := do
  let flags ← memberFlags
  let name ← countedString
  let ty ← methodType
  let body ← optional body
  pure ⟨flags, name, ty, body⟩

/-- Reads the mark and the version of an image. -/
def header : Reader Unit := do
  let magic ← word32
  if magic ≠ imageMagic then fail (.magic magic)
  else do
    let version ← word16
    if version ≠ imageVersion then fail (.version version) else pure ()

/-- Reads the flags of a class. -/
def classFlags : Reader UInt16 := do
  let flags ← word16
  if Flag.within flags Flag.ofClass then pure flags else fail (.classFlags flags)

/-- Reads a class up to its last method. -/
def classDecl : Reader ClassDecl := do
  header
  let flags ← classFlags
  let name ← countedString
  let superName ← optional countedString
  let fields ← counted field
  let methods ← counted method
  pure ⟨flags, name, superName, fields, methods⟩

/-- Reads a class and insists that nothing stands behind it. -/
def image : Reader ClassDecl := do
  let c ← classDecl
  let left ← remaining
  if left = 0 then pure c else fail (.trailingBytes left c.name)

end Reader

/-- The class that an image holds. -/
def ClassDecl.decode (image : List UInt8) : Except Error ClassDecl :=
  if image.isEmpty then .error .empty
  else (Reader.image.run (.start image)).1

end Hotswap
