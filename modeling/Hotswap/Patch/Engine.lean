import Hotswap.Patch.Bridge
import Hotswap.Patch.Resolve

/-!
# Applying patches

A patch is applied to the record of its target in the pool: the type is thawed, the method is
resolved, the transformation runs, and the transformed type is finalized. If the transformation or
what follows it fails, the record gets back the class that it held before. An abort leaves the
record as it is and unusable.
-/

namespace Hotswap

/-- Where patched classes go: how a class is defined and how a live one is found. -/
structure Definer where
  define : Machine → Library → List UInt8 → Except Error (ClassId × Machine)
  findLoaded : Machine → String → Option ClassId

/-- The machine as a definer. -/
def Definer.ofMachine : Definer := ⟨Machine.define, Machine.findLoaded⟩

/-- What patches work on: a pool, a bridge, the machine and the state of the host. -/
structure Deployment (σ : Type) where
  pool : Pool
  bridge : Bridge
  machine : Machine
  host : σ

/-- What undoes a patch: the record and the class that it held before. -/
structure Undo where
  record : RecordId
  snapshot : ClassDecl
  deriving DecidableEq, Repr

/-- What becomes of a transformed type while it is still held. -/
abbrev Finalizer (σ : Type) (α : Type) :=
  Editable → Deployment σ → Except Error α × Editable × Deployment σ

namespace Deployment

variable {σ α : Type}

/-- Puts a type into a record. -/
def write (d : Deployment σ) (id : RecordId) (type : Editable) : Deployment σ :=
  { d with pool := d.pool.modify id fun r ↦ { r with type } }

/-- Leaves a record unusable, with what it held at that moment. -/
def abandon (d : Deployment σ) (id : RecordId) (type : Editable) : Deployment σ :=
  { d with pool := d.pool.modify id fun _ ↦ ⟨type, true⟩ }

/-- Puts back the class that a record held, thawed. An unusable record stays as it is. -/
def restore (d : Deployment σ) (u : Undo) : Deployment σ :=
  { d with pool := d.pool.modify u.record fun r ↦
      if r.broken then r else { r with type := .ofDecl u.snapshot } }

/-- Undoes several patches, the latest first. -/
def undoAll (d : Deployment σ) (undo : List Undo) : Deployment σ :=
  undo.reverse.foldl restore d

/-- Transforms a type that is held, and finalizes it. -/
def transformHeld (lib : Library) (patch : Patch σ) (finalizer : Finalizer σ α) (id : RecordId)
    (type : Editable) (method : Option MethodId) (d : Deployment σ) :
    Except Failure (α × Undo) × Deployment σ :=
  let undo : Undo := ⟨id, type.decl⟩
  let (result, e) := patch.transform lib method ⟨type, d.pool, d.host⟩
  let d := { d with pool := e.pool, host := e.host }
  match result with
  | .error .aborted => (.error .aborted, d.abandon id e.type)
  | .error (.error cause) =>
    (.error (.error (.transform patch.target cause)), d.write id (.ofDecl undo.snapshot))
  | .ok _ =>
    match finalizer e.type d with
    | (.ok a, type, d) => (.ok (a, undo), d.write id type)
    | (.error cause, _, d) => (.error (.error cause), d.write id (.ofDecl undo.snapshot))

/-- Runs a patch on the record of its target and hands the transformed type to a finalizer. -/
def transform (lib : Library) (patch : Patch σ) (finalizer : Finalizer σ α) (d : Deployment σ) :
    Except Failure (α × Undo) × Deployment σ :=
  match d.pool.get? lib patch.target with
  | .error e => (.error (.error e), d)
  | .ok (none, pool) => (.error (.error (.targetNotFound patch.target)), { d with pool })
  | .ok (some id, pool) =>
    let d := { d with pool }
    match pool.record? id with
    | none => (.error (.error (.targetNotFound patch.target)), d)
    | some record =>
      if record.broken then (.error (.error .lock), d)
      else
        let type := record.type.thaw
        let (resolved, pool) := patch.resolve lib d.pool type
        let d := { d with pool }
        match resolved with
        | .error e => (.error (.error e), d.write id type)
        | .ok method => transformHeld lib patch finalizer id type method d

/-- Finalizes a type into its image. -/
def toImage (target : String) : Finalizer σ (List UInt8) := fun type d ↦
  match type.finalize with
  | (.ok image, type) => (.ok image, type, d)
  | (.error e, type) => (.error (.definition target e), type, d)

/-- Finalizes a type and defines its image as a new class. -/
def toNewClass (lib : Library) (definer : Definer) (target : String) :
    Finalizer σ ClassId := fun type d ↦
  match toImage target type d with
  | (.error e, type, d) => (.error e, type, d)
  | (.ok image, type, d) =>
    match definer.define d.machine lib image with
    | .ok (id, machine) => (.ok id, type, { d with machine })
    | .error e => (.error (.definition target e), type, d)

/-- Finalizes a type and redefines a live class with its image. -/
def toLiveClass (target : String) (cls : ClassId) : Finalizer σ (List ClassId) := fun type d ↦
  match toImage target type d with
  | (.error e, type, d) => (.error e, type, d)
  | (.ok image, type, d) =>
    let (result, bridge, machine) := d.bridge.redefine d.machine [⟨cls, image⟩]
    (result, type, { d with bridge, machine })

/-- The live class of a patch. -/
def targetClass (definer : Definer) (patch : Patch σ) (d : Deployment σ) :
    Except Failure ClassId :=
  match definer.findLoaded d.machine patch.target with
  | some id => .ok id
  | none => .error (.error (.liveClassNotFound patch.target))

/-- Applies a patch and defines the patched type as a new class. -/
def applyNew (lib : Library) (definer : Definer) (patch : Patch σ) (d : Deployment σ) :
    Except Failure ClassId × Deployment σ :=
  let (result, d) := transform lib patch (toNewClass lib definer patch.target) d
  (result.map Prod.fst, d)

/-- Applies a patch and redefines the live class of its target. -/
def applyLive (lib : Library) (definer : Definer) (patch : Patch σ) (d : Deployment σ) :
    Except Failure ClassId × Deployment σ :=
  match d.targetClass definer patch with
  | .error e => (.error e, d)
  | .ok cls =>
    match transform lib patch (toLiveClass patch.target cls) d with
    | (.error e, d) => (.error e, d)
    | (.ok (classes, _), d) =>
      match classes.getLast? with
      | some id => (.ok id, d)
      | none => (.error (.error (.redefinition .empty)), d)

/-- Applies a patch, to a new class or to the live one. -/
def apply (lib : Library) (definer : Definer) (patch : Patch σ) (redefine : Bool)
    (d : Deployment σ) : Except Failure ClassId × Deployment σ :=
  if redefine then applyLive lib definer patch d else applyNew lib definer patch d

/-- Applies a patch and gives the patched image. -/
def image (lib : Library) (patch : Patch σ) (d : Deployment σ) :
    Except Failure (List UInt8) × Deployment σ :=
  let (result, d) := transform lib patch (toImage patch.target) d
  (result.map Prod.fst, d)

/-- Applies a patch and pairs the live class with the patched image; keeps what undoes it. -/
def prepare (lib : Library) (definer : Definer) (patch : Patch σ) (d : Deployment σ) :
    Except Failure (Replacement × Undo) × Deployment σ :=
  match d.targetClass definer patch with
  | .error e => (.error e, d)
  | .ok cls =>
    let (result, d) := transform lib patch (toImage patch.target) d
    (result.map fun (image, undo) ↦ (⟨cls, image⟩, undo), d)

/-- Applies a patch and pairs the live class with the patched image. -/
def definition (lib : Library) (definer : Definer) (patch : Patch σ) (d : Deployment σ) :
    Except Failure Replacement × Deployment σ :=
  let (result, d) := prepare lib definer patch d
  (result.map Prod.fst, d)

/-- Prepares patches in turn. If one fails those before it are undone; after an abort nothing is. -/
def prepareAll (lib : Library) (definer : Definer) (undo : List Undo) (d : Deployment σ) :
    List (Patch σ) → Except Failure (List Replacement × List Undo) × Deployment σ
  | [] => (.ok ([], undo), d)
  | patch :: rest =>
    match prepare lib definer patch d with
    | (.error .aborted, d) => (.error .aborted, d)
    | (.error (.error e), d) => (.error (.error e), d.undoAll undo)
    | (.ok (u, back), d) =>
      match prepareAll lib definer (undo ++ [back]) d rest with
      | (.ok (batch, undo), d) => (.ok (u :: batch, undo), d)
      | (.error e, d) => (.error e, d)

/-- Applies every patch and redefines all targets in one batch, in the order of the patches. If
anything fails every patch is undone in the pool. -/
def applyAll (lib : Library) (definer : Definer) (patches : List (Patch σ))
    (d : Deployment σ) : Except Failure (List ClassId) × Deployment σ :=
  match prepareAll lib definer [] d patches with
  | (.error e, d) => (.error e, d)
  | (.ok (batch, undo), d) =>
    let (result, bridge, machine) := d.bridge.redefine d.machine batch
    let d := { d with bridge, machine }
    match result with
    | .ok classes => (.ok classes, d)
    | .error e => (.error (.error e), d.undoAll undo)

end Deployment

end Hotswap
