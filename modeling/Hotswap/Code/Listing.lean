import Hotswap.Code.Opcode
import Hotswap.Decimal.Shortest
import Hotswap.Text.Quoted
import Hotswap.Types.Descriptor

/-!
# Listings

How an instruction is written in a message.
-/

namespace Hotswap

/-- A literal as it is written in a listing. -/
def Constant.listing : Constant → String
  | null => "null"
  | int v => toString v.toInt
  | long v => toString v.toInt ++ "L"
  | double v => Decimal.text v ++ "D"
  | str v => Text.quote v

/-- A field as it is written in a listing. -/
def FieldRef.listing (f : FieldRef) : String := f.owner ++ "." ++ f.name

/-- A method as it is written in a listing. -/
def MethodRef.listing (m : MethodRef) : String :=
  m.owner ++ "." ++ m.name ++ m.type.descriptor

/-- An instruction as it is written in a listing; one without operands goes by its opcode. -/
def Instruction.listing : Instruction → String
  | const c => "const " ++ c.listing
  | load i => s!"load {i}"
  | store i => s!"store {i}"
  | jump t => s!"jump {t}"
  | jumpIf .zero t => s!"jump_if_zero {t}"
  | jumpIf .nonZero t => s!"jump_if_nonzero {t}"
  | new c => "new " ++ c
  | getField f => "getfield " ++ f.listing
  | putField f => "putfield " ++ f.listing
  | getStatic f => "getstatic " ++ f.listing
  | putStatic f => "putstatic " ++ f.listing
  | invokeVirtual m => "invokevirtual " ++ m.listing
  | invokeStatic m => "invokestatic " ++ m.listing
  | callNative n => "callnative " ++ n.name ++ n.type.descriptor
  | i => String.ofList (i.opcode.name.toList.map Char.toLower)

end Hotswap
