import Hotswap.Machine.Run
import Hotswap.Patch.Script

/-!
# Sessions

A session holds everything that a command can reach: the sources, one machine with its natives,
and numbered pools, bridges and engines. Natives and patches are given as data. What natives and
transformations see is logged.
-/

namespace Hotswap

/-- What a native or a transformation saw. -/
inductive Event where
  | native (name : String) (args : List Value)
  | transform (target : String) (method : Option MethodId)
  deriving DecidableEq, Repr

/-- Events, the first first. -/
abbrev Log := Array Event

/-- A patch as data. Without edits it has no transformation. -/
structure PatchSketch where
  target : String
  method : Option String
  params : List Parameters
  edits : Option (List Edit)
  deriving Repr

/-- The transformation that logs that it starts and makes edits. -/
def scripted (target : String) (edits : List Edit) : Transform Log := fun lib method e ↦
  Edit.runAll lib method edits { e with host := e.host.push (.transform target method) }

/-- The patch that a sketch describes. -/
def PatchSketch.build (p : PatchSketch) : Except Error (Patch Log) :=
  Patch.build p.target p.method p.params (p.edits.map (scripted p.target))

/-- The transformation that puts the code of the method, without the returns of no value, in front
of the body. -/
def doubling : Transform Log := fun _ method e ↦
  match method with
  | none => (.error (.error (.custom "no method")), e)
  | some id =>
    match (e.type.method? id).bind (·.body) with
    | none => (.error (.error (.custom "no body")), e)
    | some b =>
      match e.type.insertBefore id (b.code.filter (· != .ret)) with
      | .ok type => (.ok (), { e with type })
      | .error cause => (.error (.error cause), e)

/-- How a registered native behaves. -/
inductive NativeKind where
  /-- Logs the call. -/
  | record
  /-- Logs the call and gives its first argument. -/
  | echo
  /-- Gives the number of its arguments. -/
  | count
  /-- Gives a fixed value. -/
  | const (v : Value)
  /-- Logs the call and fails. -/
  | fail (message : String)
  /-- Logs the call and applies a patch. -/
  | patch (patch : Patch Log) (redefine : Bool) (engine : Nat)

/-- An engine: the pool and the bridge that it uses and the definer that it defines classes in. -/
structure Engine where
  pool : Nat
  bridge : Nat
  definer : Definer

/-- What natives can reach beside the machine. -/
structure Workshop where
  pools : Array Pool
  bridges : Array Bridge
  engines : Array Engine
  log : Log

/-- A session. -/
structure Session where
  library : Library
  natives : Table String NativeKind
  /-- The images that were kept, by key. -/
  images : Table String (List UInt8)
  /-- The replacements that were kept, by key. -/
  replacements : Table String Replacement
  world : World Workshop

/-- The failure of a command that names something that is not there. -/
def missing (what : String) : Failure := .error (.custom ("no such " ++ what))

/-- Runs an operation of an engine on the world. -/
def World.deploy {α : Type} (w : World Workshop) (engine : Nat)
    (f : Definer → Deployment Log → Except Failure α × Deployment Log) :
    Except Failure α × World Workshop :=
  match w.host.engines[engine]? with
  | none => (.error (missing "engine"), w)
  | some e =>
    match w.host.pools[e.pool]?, w.host.bridges[e.bridge]? with
    | some pool, some bridge =>
      let (result, d) := f e.definer ⟨pool, bridge, w.machine, w.host.log⟩
      (result,
        { machine := d.machine
          host := { w.host with
            pools := w.host.pools.setIfInBounds e.pool d.pool
            bridges := w.host.bridges.setIfInBounds e.bridge d.bridge
            log := d.host } })
    | _, _ => (.error (missing "pool or bridge"), w)

/-- Logs an event. -/
def World.logged (w : World Workshop) (e : Event) : World Workshop :=
  match w with
  | ⟨machine, ⟨pools, bridges, engines, log⟩⟩ =>
    ⟨machine, ⟨pools, bridges, engines, log.push e⟩⟩

/-- The native of a kind. -/
def NativeKind.toNative (lib : Library) (name : String) : NativeKind → Native Workshop
  | record => fun args w ↦ (.value .void, w.logged (.native name args))
  | echo => fun args w ↦ (.value (args.head?.getD .void), w.logged (.native name args))
  | count => fun args w ↦ (.value (.int (Int32.ofNat args.length)), w)
  | const v => fun _ w ↦ (.value v, w)
  | fail message => fun args w ↦ (.failed message, w.logged (.native name args))
  | patch p redefine engine => fun args w ↦
    match (w.logged (.native name args)).deploy engine
        fun definer d ↦ d.apply lib definer p redefine with
    | (.ok _, w) => (.value .void, w)
    | (.error (.error e), w) => (.failed e.message, w)
    | (.error .aborted, w) => (.aborted, w)

/-- What code can reach in a session. Where objects lie is nothing that a session is about, so they
lie side by side. -/
def Session.surroundings (s : Session) : Surroundings Workshop where
  library := s.library
  native? name := (s.natives.get? name).map (·.toNative s.library name)
  address object := 16 * (object.index + 1)

/-- A definer that has no loaded classes and refuses every definition with one error. -/
def Definer.refusing (refusal : Error) : Definer :=
  ⟨fun _ _ _ ↦ .error refusal, fun _ _ ↦ none⟩

/-- How the agent of a bridge behaves once it succeeds. -/
inductive BridgeKind where
  /-- Grants the capability of the machine, if the machine allows it. -/
  | self
  /-- Redefines nothing and gives the classes of the batch. -/
  | recording
  /-- Redefines nothing and gives no classes. -/
  | empty
  deriving DecidableEq, Repr

/-- The agent of a kind. -/
def BridgeKind.agent : BridgeKind → Agent
  | self => .self
  | recording => fun _ _ ↦ .ok fun m batch ↦ .ok (batch.map (·.cls), m)
  | empty => fun _ _ ↦ .ok fun m _ ↦ .ok ([], m)

/-- An agent whose first `n` calls fail with an error. -/
def Agent.failingFirst (n : Nat) (failure : Error) (agent : Agent) : Agent :=
  fun calls m ↦ if calls < n then .error failure else agent calls m

/-- How the sources of a session are made. -/
inductive SourceKind where
  | memory
  | directory
  deriving DecidableEq, Repr

/-- The root of a source in files, by the number of the source. -/
def sourceRoot (i : Nat) : List Char := ("/tmp/sources/s" ++ toString i).toList

/-- A source without images, by its number and kind. -/
def SourceKind.make (i : Nat) : SourceKind → Source
  | memory => .newMemory
  | directory => .newDirectory (sourceRoot i)

/-- Everything that a session begins with. -/
structure Setup where
  sources : List SourceKind
  machineSources : Classpath
  poolSources : Classpath
  config : Config
  classes : List ClassDecl
  deriving Repr

/-- Stores classes in the first source, up to the first that cannot be stored. -/
def storeAll (s : Source) : List ClassDecl → Except Error Source
  | [] => .ok s
  | c :: rest =>
    match s.store c with
    | (.ok _, s) => storeAll s rest
    | (.error e, _) => .error e

/-- A session with one pool, one bridge to the machine itself and one engine over them. -/
def Session.begin (setup : Setup) : Except Error Session := do
  let sources := setup.sources.zipIdx.map fun (kind, i) ↦ kind.make i
  let sources ← match sources with
    | [] => pure []
    | first :: rest => do
      let first ← storeAll first setup.classes
      pure (first :: rest)
  pure
    { library := ⟨sources.toArray⟩
      natives := .empty
      images := .empty
      replacements := .empty
      world :=
        { machine := .new setup.config setup.machineSources
          host :=
            { pools := #[.new setup.poolSources]
              bridges := #[.new .self]
              engines := #[⟨0, 0, .ofMachine⟩]
              log := #[] } } }

end Hotswap
