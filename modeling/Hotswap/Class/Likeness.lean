import Hotswap.Class.Basic

/-!
# Likeness

Classes are alike when they agree in everything and their double precision literals are equal as
numbers: the two zeros are alike, and what is no number is not like itself.
-/

namespace Hotswap

/-- Literals that are equal as values. -/
def Constant.like : Constant → Constant → Bool
  | double a, double b => a.same b
  | a, b => a == b

/-- Instructions whose literals are equal as values. -/
def Instruction.like : Instruction → Instruction → Bool
  | const a, const b => a.like b
  | a, b => a == b

/-- Compares lists item by item. -/
def likeLists {α : Type} (like : α → α → Bool) : List α → List α → Bool
  | [], [] => true
  | a :: as, b :: bs => like a b && likeLists like as bs
  | _, _ => false

/-- Bodies whose literals are equal as values. -/
def Body.like (a b : Body) : Bool :=
  a.maxLocals == b.maxLocals && a.maxStack == b.maxStack &&
    likeLists Instruction.like a.code b.code

/-- Methods whose literals are equal as values. -/
def MethodDecl.like (a b : MethodDecl) : Bool :=
  a.flags == b.flags && a.name == b.name && a.type == b.type &&
    match a.body, b.body with
    | some x, some y => x.like y
    | none, none => true
    | _, _ => false

/-- Classes whose literals are equal as values. -/
def ClassDecl.like (a b : ClassDecl) : Bool :=
  a.flags == b.flags && a.name == b.name && a.superName == b.superName &&
    a.fields == b.fields && likeLists MethodDecl.like a.methods b.methods

end Hotswap
