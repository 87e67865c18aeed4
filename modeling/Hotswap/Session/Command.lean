import Hotswap.Session.Basic

/-!
# Commands and answers

What a session can be asked to do, and the shapes of its answers. Pools, bridges, engines and
sources go by their numbers.
-/

namespace Hotswap

/-- Where an image comes from. -/
inductive ImageOrigin where
  | bytes (image : List UInt8)
  | ofClass (decl : ClassDecl)
  | saved (key : String)
  deriving Repr

/-- Where a replacement comes from. -/
inductive ReplacementOrigin where
  | saved (key : String)
  | pair (cls : ClassId) (image : ImageOrigin)
  deriving Repr

/-- Which definer an engine defines classes in. -/
inductive DefinerKind where
  | machine
  /-- None of the machine's classes is loaded in it, and it refuses every definition. -/
  | refusing (refusal : Error)
  deriving DecidableEq, Repr

/-- How a native is to behave; a patch is not built yet. -/
inductive NativeSketch where
  | kind (k : NativeKind)
  | patch (p : PatchSketch) (redefine : Bool) (engine : Nat)

/-- A command. -/
inductive Command where
  | addClass (source : Nat) (decl : ClassDecl)
  | addImage (source : Nat) (name : String) (image : ImageOrigin)
  | findImage (source : Nat) (name : String)
  | appendToMachine (source : Nat)
  | config
  | load (name : String)
  | findLoaded (name : String)
  | define (image : ImageOrigin)
  | classCount
  | register (name : String) (native : NativeSketch)
  | new (cls : ClassId)
  | invokeVirtual (object : ObjectId) (name descriptor : String) (args : List Value)
  | invokeStatic (cls : ClassId) (name descriptor : String) (args : List Value)
  | getStatic (cls : ClassId) (name : String)
  | ownStatic (cls : ClassId) (name : String)
  | setStatic (cls : ClassId) (name : String) (value : Value)
  | staticHolder (cls : ClassId) (name : String)
  | getField (object : ObjectId) (name : String)
  | setField (object : ObjectId) (name : String) (value : Value)
  | object (object : ObjectId)
  | classInfo (cls : ClassId)
  | lookup (cls : ClassId) (name descriptor : String)
  | subclass (cls ancestor : ClassId)
  | newPool (sources : Classpath)
  | appendToPool (pool source : Nat)
  | poolSize (pool : Nat)
  | poolContains (pool : Nat) (name : String)
  | poolGet (pool : Nat) (name : String)
  | poolGetOrNone (pool : Nat) (name : String)
  | poolInsert (pool : Nat) (decl : ClassDecl)
  | poolEdit (pool : Nat) (name : String) (edits : List Edit)
  | typeNames (pool : Nat) (names : List String)
  | reflectedTypes (pool : Nat) (types : List Reflected)
  | describePatch (patch : PatchSketch)
  | resolve (pool : Nat) (patch : PatchSketch)
  /-- Makes a bridge whose first attaches fail. -/
  | newBridge (kind : BridgeKind) (failures : Nat) (failure : Error)
  | newEngine (pool bridge : Nat) (definer : DefinerKind)
  | engine (engine : Nat)
  | bridge (bridge : Nat)
  | attach (bridge : Nat)
  | apply (engine : Nat) (patch : PatchSketch) (redefine : Bool)
  | image (engine : Nat) (patch : PatchSketch) (save : Option String)
  | definition (engine : Nat) (patch : PatchSketch) (save : Option String)
  | applyAll (engine : Nat) (patches : List PatchSketch)
  | redefine (bridge : Nat) (batch : List ReplacementOrigin)
  | doubleBody (engine : Nat) (target method : String) (redefine : Bool)

/-- What is told about a class. -/
structure ClassReport where
  cls : ClassId
  superclass : Option ClassId
  description : String
  isSystem : Bool
  redefinitions : UInt32
  instanceFields : List FieldDecl
  definition : ClassDecl
  deriving Repr

/-- An answer. -/
inductive Answer where
  | done
  | absent
  | number (n : Nat)
  | flag (b : Bool)
  | text (s : String)
  | image (bytes : List UInt8)
  /-- A size, with whether it is zero. -/
  | size (n : Nat)
  | cls (id : ClassId)
  | value (v : Value)
  | config (c : Config) (description : String)
  | object (id : ObjectId) (cls : ClassId) (description : String)
  | classInfo (report : ClassReport)
  | method (owner : ClassId) (m : MethodDecl)
  /-- Whether one class inherits from another, whether they are the same, and how many they are. -/
  | relation (inherits same : Bool) (count : Nat)
  /-- A record, with whether asking again gives the same one. -/
  | record (same frozen : Bool) (decl : ClassDecl)
  | inserted (frozen : Bool) (name : String)
  | edits (answers : List (Except Failure EditAnswer)) (frozen : Bool)
  | descriptors (types : List String)
  | reflected (names : List String) (types : Except Error (List String))
  | patch (target : String) (method : Option String) (description : String)
  | resolved (method : Option MethodId)
  | bridge (attached : Bool) (calls : Nat)
  | engine (size : Nat) (attached : Bool) (description : String)
  | applied (cls : ClassId) (redefinitions : UInt32) (isSystem : Bool)
  | patched (image : List UInt8) (decl : Except Error ClassDecl)
  | definition (cls : ClassId) (image : List UInt8) (description : String)
  | redefined (classes : List (ClassId × UInt32))
  deriving Repr

end Hotswap
