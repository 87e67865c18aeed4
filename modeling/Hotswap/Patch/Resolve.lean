import Hotswap.Patch.Basic

/-!
# Resolving methods

The method of a patch is the declared method with its name and the described parameters. Every
class among the parameter types must be one that the pool can provide. Resolving may load such
classes into the pool, also when it fails later.
-/

namespace Hotswap

namespace Pool

/-- Makes sure that the class at the bottom of a type is in the pool. -/
def know (p : Pool) (lib : Library) (type : Ty) : Except Error Unit × Pool :=
  match type.className? with
  | none => (.ok (), p)
  | some name =>
    match p.get lib name with
    | .ok (_, p) => (.ok (), p)
    | .error e => (.error e, p)

/-- Resolves descriptions of types one after the other, up to the first that fails. -/
def resolveAll {α : Type} (lib : Library) (read : α → Except Error Ty) :
    Pool → List α → Except Error (List Ty) × Pool
  | p, [] => (.ok [], p)
  | p, a :: rest =>
    match read a with
    | .error e => (.error e, p)
    | .ok type =>
      match p.know lib type with
      | (.error e, p) => (.error e, p)
      | (.ok _, p) =>
        match resolveAll lib read p rest with
        | (.error e, p) => (.error e, p)
        | (.ok types, p) => (.ok (type :: types), p)

/-- The types that names name. -/
def resolveNames (p : Pool) (lib : Library) (names : List String) :
    Except Error (List Ty) × Pool :=
  resolveAll lib Ty.ofSourceName p names

/-- The types that reflected types are. -/
def resolveReflected (p : Pool) (lib : Library) (types : List Reflected) :
    Except Error (List Ty) × Pool :=
  resolveAll lib (fun t ↦ .ok t.toTy) p types

end Pool

/-- The declared method of a type that has a name and described parameters. -/
def Parameters.find (params : Parameters) (lib : Library) (p : Pool) (t : Editable)
    (name : String) : Except Error MethodId × Pool :=
  match params with
  | unspecified => (t.declared name [], p)
  | byDescriptor d => (t.declaredBy name d, p)
  | byName names =>
    match p.resolveNames lib names with
    | (.ok types, p) => (t.declared name types, p)
    | (.error e, p) => (.error e, p)
  | byType types =>
    match p.resolveReflected lib types with
    | (.ok types, p) => (t.declared name types, p)
    | (.error e, p) => (.error e, p)

/-- The method of a type that a patch is for; nothing if it is for the whole type. -/
def Patch.resolve {σ : Type} (patch : Patch σ) (lib : Library) (p : Pool) (t : Editable) :
    Except Error (Option MethodId) × Pool :=
  match patch.method with
  | none => (.ok none, p)
  | some name =>
    match patch.params.find lib p t name with
    | (.ok id, p) => (.ok (some id), p)
    | (.error e, p) => (.error (.methodNotFound patch.target name e), p)

end Hotswap
