import Hotswap.Code.Opcode
import Hotswap.Decimal.Shortest
import Hotswap.Error.Machine

/-!
# Values

What the operand stack, the locals and the fields hold. All integers narrower than `long` are
carried as `int`, and `float` is carried as `double`. An object is the same as itself only.
-/

namespace Hotswap

/-- The number of a class of the machine, counted from its first class on. -/
structure ClassId where
  index : Nat
  deriving DecidableEq, Repr, Inhabited

/-- The number of an object of the machine, counted from its first object on. -/
structure ObjectId where
  index : Nat
  deriving DecidableEq, Repr, Inhabited

/-- A value. -/
inductive Value where
  /-- No value, as a call without a result gives. -/
  | void
  | int (value : Int32)
  | long (value : Int64)
  | double (value : Binary64)
  | str (value : String)
  | ref (object : ObjectId)
  | null
  deriving DecidableEq, Repr, Inhabited

namespace Value

/-- The value with which a field of some type begins. -/
def defaultFor : Ty → Value
  | .void => void
  | .prim .long => long 0
  | .prim .float | .prim .double => double .zero
  | .prim _ => int 0
  | .cls _ | .array _ => null

/-- The value of a literal. -/
def ofConstant : Constant → Value
  | .null => null
  | .int v => int v
  | .long v => long v
  | .double v => double v
  | .str v => str v

/-- The word for the kind of a value. -/
def kind : Value → String
  | void => "void"
  | int _ => "int"
  | long _ => "long"
  | double _ => "double"
  | str _ => "string"
  | ref _ => "object"
  | null => "null"

/-- The text of a value. An object has a text of its own in its machine only, and goes by its kind
here. -/
def text : Value → String
  | void => "void"
  | int v => toString v.toInt
  | long v => toString v.toInt
  | double v => Decimal.text v
  | str v => v
  | v@(ref _) => v.kind
  | null => "null"

/-- The string that a value carries. -/
def str? : Value → Option String
  | str v => some v
  | _ => none

/-- A truth value as a number. -/
def ofBool (b : Bool) : Value := int (if b then 1 else 0)

/-- Equality as code sees it. Values of different kinds differ. -/
def same : Value → Value → Bool
  | double a, double b => a.same b
  | a, b => a == b

/-- The failure for a value of another kind than the expected one. -/
def wrongKind (expected : String) (v : Value) : MachineError :=
  .typeMismatch (.kind expected v.kind)

/-- The integer that a value carries. -/
def asInt : Value → Except MachineError Int32
  | int v => .ok v
  | v => .error (v.wrongKind "int")

/-- The long integer that a value carries. -/
def asLong : Value → Except MachineError Int64
  | long v => .ok v
  | v => .error (v.wrongKind "long")

/-- The object that a value refers to. -/
def asObject : Value → Except MachineError ObjectId
  | ref o => .ok o
  | null => .error .nullReference
  | v => .error (v.wrongKind "object")

/-- Tells whether a value counts as false in a branch. -/
def isZero : Value → Except MachineError Bool
  | int v => .ok (v == 0)
  | long v => .ok (v == 0)
  | null => .ok true
  | ref _ | str _ => .ok false
  | v => .error (v.wrongKind "int")

/-- The sum, difference or product of two numbers of one kind; a sum with a string concatenates
the texts that both values have. Integers wrap around. -/
def arithmetic (text : Value → String) (op : Arithmetic) (left right : Value) :
    Except MachineError Value :=
  match op, left, right with
  | .add, str _, _ | .add, _, str _ => .ok (str (text left ++ text right))
  | .add, int a, int b => .ok (int (a + b))
  | .sub, int a, int b => .ok (int (a - b))
  | .mul, int a, int b => .ok (int (a * b))
  | .add, long a, long b => .ok (long (a + b))
  | .sub, long a, long b => .ok (long (a - b))
  | .mul, long a, long b => .ok (long (a * b))
  | .add, double a, double b => .ok (double (a.add b))
  | .sub, double a, double b => .ok (double (a.sub b))
  | .mul, double a, double b => .ok (double (a.mul b))
  | op, left, right => .error (.typeMismatch (.operands (word op) left.kind right.kind))
where
  /-- The word for an operation. -/
  word : Arithmetic → String
    | .add => "add"
    | .sub => "sub"
    | .mul => "mul"

/-- Tells whether the first of two numbers of one kind is less than the second. -/
def less : Value → Value → Except MachineError Bool
  | int a, int b => .ok (decide (a < b))
  | long a, long b => .ok (decide (a < b))
  | double a, double b => .ok (a.less b)
  | a, b => .error (.typeMismatch (.operands "cmp_lt" a.kind b.kind))

end Value

end Hotswap
