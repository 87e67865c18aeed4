import Hotswap.Pool.Basic
import Hotswap.Text.Blank
import Hotswap.Types.SourceName
import Hotswap.Machine.Value

/-!
# Patches

A patch names a class, perhaps one of its methods, and a transformation. The parameters of the
method are described in at most one way: by type names, by reflected types or by a descriptor.
-/

namespace Hotswap

/-- A type taken from the running machine. -/
inductive Reflected where
  | prim (kind : Primitive)
  | cls (id : ClassId) (name : String)
  | array (element : Reflected)
  deriving DecidableEq, Repr

namespace Reflected

/-- The type that a reflected type is. -/
def toTy : Reflected → Ty
  | prim kind => .prim kind
  | cls _ name => .cls name
  | array element => .array element.toTy

/-- The name of a reflected type as it is written in source. -/
def sourceName (t : Reflected) : String := t.toTy.sourceName

end Reflected

/-- How the parameters of a method are described. -/
inductive Parameters where
  /-- The method has none. -/
  | unspecified
  | byName (names : List String)
  | byType (types : List Reflected)
  | byDescriptor (descriptor : String)
  deriving DecidableEq, Repr

/-- What a transformation works on: the type in its hands, the pool of the type, and whatever state
its host keeps. -/
structure Editing (σ : Type) where
  type : Editable
  pool : Pool
  host : σ

/-- A transformation: what it does when the patch names this method, or none. -/
abbrev Transform (σ : Type) :=
  Library → Option MethodId → Editing σ → Except Failure Unit × Editing σ

/-- A patch. -/
structure Patch (σ : Type) where
  target : String
  method : Option String
  params : Parameters
  transform : Transform σ

/-- The patch of a description; the parameter lists are those that were given. -/
def Patch.build {σ : Type} (target : String) (method : Option String) (params : List Parameters)
    (transform : Option (Transform σ)) : Except Error (Patch σ) :=
  if (Text.trim target.toList).isEmpty then .error (.invalidPatch .emptyTarget)
  else
    match transform with
    | none => .error (.invalidPatch (.noTransformation target))
    | some transform =>
      match params with
      | [] => .ok ⟨target, method, .unspecified, transform⟩
      | [p] => .ok ⟨target, method, p, transform⟩
      | _ => .error (.invalidPatch (.severalParameterLists target params.length))

end Hotswap
