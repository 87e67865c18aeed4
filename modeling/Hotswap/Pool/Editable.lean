import Hotswap.Class.Codec
import Hotswap.Class.Verify
import Hotswap.Code.Weave

/-!
# Editable types

A class that can be edited until it is finalized into an image, which freezes it. Every edit of a
frozen type fails until the type is thawed. Methods are named by their position, which no edit
changes.
-/

namespace Hotswap

/-- The position of a method in its class. -/
structure MethodId where
  index : Nat
  deriving DecidableEq, Repr, Inhabited

/-- The text of a position. -/
def MethodId.text (id : MethodId) : String := s!"#{id.index}"

/-- A class that can be edited. -/
structure Editable where
  decl : ClassDecl
  frozen : Bool
  deriving DecidableEq, Repr

namespace Editable

/-- A thawed type. -/
def ofDecl (decl : ClassDecl) : Editable := ⟨decl, false⟩

/-- Allows edits again. -/
def thaw (t : Editable) : Editable := { t with frozen := false }

/-- The method at a position. -/
def method? (t : Editable) (id : MethodId) : Option MethodDecl := t.decl.methods[id.index]?

/-- The positions of the methods. -/
def methodIds (t : Editable) : List MethodId := (List.range t.decl.methods.length).map (⟨·⟩)

/-- A parameter list as it is written in source. -/
def sourceList (params : List Ty) : String :=
  "(" ++ ", ".intercalate (params.map Ty.sourceName) ++ ")"

/-- The one declared method with a name and exactly these parameter types. -/
def declared (t : Editable) (name : String) (params : List Ty) : Except Error MethodId :=
  let found := t.decl.methods.zipIdx.filter fun (m, _) ↦ m.name == name && m.type.params == params
  match found with
  | [(_, index)] => .ok ⟨index⟩
  | [] => .error (.noSuchMethod t.decl.name name (sourceList params))
  | _ =>
    .error (.ambiguousMethod t.decl.name name (sourceList params)
      (found.map fun (m, _) ↦ m.type.descriptor))

/-- The first declared method with a name and exactly this descriptor. -/
def declaredBy (t : Editable) (name descriptor : String) : Except Error MethodId := do
  let type ← MethodTy.ofDescriptor descriptor
  match t.decl.methods.findIdx? fun m ↦ m.goesBy name type with
  | some index => pure ⟨index⟩
  | none => throw (.noSuchMethod t.decl.name name descriptor)

/-- Fails on a frozen type. -/
def checkThawed (t : Editable) : Except Error Unit :=
  if t.frozen then .error (.frozen t.decl.name) else .ok ()

/-- Changes the method at a position. -/
def modifyMethod (t : Editable) (id : MethodId) (f : MethodDecl → Except Error MethodDecl) :
    Except Error Editable := do
  t.checkThawed
  match t.method? id with
  | none => throw (.noSuchMethod t.decl.name id.text "")
  | some m => do
    let m ← f m
    pure { t with decl := { t.decl with methods := t.decl.methods.set id.index m } }

/-- Changes the body of the method at a position. -/
def modifyBody (t : Editable) (id : MethodId) (f : Body → Except Error Body) :
    Except Error Editable :=
  t.modifyMethod id fun m ↦
    match m.body with
    | some b => (f b).map fun b ↦ { m with body := some b }
    | none => .error (.noSuchMethod t.decl.name m.signature " (no body)")

/-- Declares a field. -/
def addField (t : Editable) (f : FieldDecl) : Except Error Editable := do
  t.checkThawed
  if t.decl.fields.any (·.name == f.name) then throw (.duplicateMember t.decl.name f.name)
  pure { t with decl := { t.decl with fields := t.decl.fields ++ [f] } }

/-- Declares a method; its position is the last one. -/
def addMethod (t : Editable) (m : MethodDecl) : Except Error (Editable × MethodId) := do
  t.checkThawed
  if (t.decl.method? m.name m.type).isSome then
    throw (.duplicateMember t.decl.name m.signature)
  pure ({ t with decl := { t.decl with methods := t.decl.methods ++ [m] } },
    ⟨t.decl.methods.length⟩)

/-- Runs a snippet at the entry of a method. -/
def insertBefore (t : Editable) (id : MethodId) (snippet : List Instruction) :
    Except Error Editable :=
  t.modifyBody id (·.insertBefore snippet)

/-- Runs a snippet whenever a method returns normally. -/
def insertAfter (t : Editable) (id : MethodId) (snippet : List Instruction) :
    Except Error Editable :=
  t.modifyBody id (·.insertAfter snippet)

/-- Replaces the code of a method. A method without body gets one. -/
def setBody (t : Editable) (id : MethodId) (code : List Instruction) : Except Error Editable :=
  t.modifyMethod id fun m ↦
    .ok { m with body := some (match m.body with
      | some b => b.replace code
      | none => m.bodyOf code) }

/-- Replaces the flags of a method. -/
def setFlags (t : Editable) (id : MethodId) (flags : UInt16) : Except Error Editable :=
  t.modifyMethod id fun m ↦ .ok { m with flags }

/-- Finalizes a type: its image, and the frozen type in which every body declares the depth that it
reaches. A class that does not verify with these depths or has no image keeps them and stays as
frozen as it was; one without such depths stays as it was. -/
def finalize (t : Editable) : Except Error (List UInt8) × Editable :=
  match t.decl.withReachedDepths with
  | .error e => (.error e, t)
  | .ok decl =>
    match decl.verify with
    | .error e => (.error e, { t with decl })
    | .ok _ =>
      match decl.encode with
      | .error e => (.error e, { t with decl })
      | .ok image => (.ok image, ⟨decl, true⟩)

end Editable

end Hotswap
