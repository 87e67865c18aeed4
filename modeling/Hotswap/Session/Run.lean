import Hotswap.Session.Command
import Hotswap.Session.Description

/-!
# Running commands

Each command takes a session to its answer, or to a failure, and the session after it.
-/

namespace Hotswap

namespace Session

/-- What a command comes to. -/
abbrev Reply := Except Failure Answer × Session

/-- An answer that changes nothing. -/
def answer (s : Session) (a : Answer) : Reply := (.ok a, s)

/-- A failure that changes nothing. -/
def fail (s : Session) (e : Failure) : Reply := (.error e, s)

/-- Fails with an error. -/
def error (s : Session) (e : Error) : Reply := s.fail (.error e)

/-- Goes on with the result of a computation that changes nothing. -/
def whenOk {α : Type} (s : Session) (r : Except Error α) (k : α → Reply) : Reply :=
  match r with
  | .ok a => k a
  | .error e => s.error e

/-- Goes on with the result of a computation of the machine that changes nothing. -/
def withMachine {α : Type} (s : Session) (r : Except MachineError α) (k : α → Reply) : Reply :=
  s.whenOk (r.mapError .machine) k

/-- Goes on with what an operation comes to that may change the machine. -/
def onMachine {α : Type} (s : Session) (operation : Machine → Except MachineError α × Machine)
    (k : Session → α → Reply) : Reply :=
  let (result, machine) := operation s.world.machine
  let s := { s with world := { s.world with machine } }
  s.withMachine result (k s)

/-- Goes on with something that may not be there. -/
def found {α : Type} (s : Session) (what : String) (o : Option α) (k : α → Reply) : Reply :=
  match o with
  | some a => k a
  | none => s.fail (missing what)

/-- The machine of a session. -/
def machine (s : Session) : Machine := s.world.machine

/-- The session with another machine. -/
def setMachine (s : Session) (machine : Machine) : Session :=
  { s with world := { s.world with machine } }

/-- The session with another workshop. -/
def setHost (s : Session) (host : Workshop) : Session := { s with world := { s.world with host } }

/-- The session with another pool under a number. -/
def setPool (s : Session) (i : Nat) (pool : Pool) : Session :=
  s.setHost { s.world.host with pools := s.world.host.pools.setIfInBounds i pool }

/-- The session with another bridge under a number. -/
def setBridge (s : Session) (i : Nat) (bridge : Bridge) : Session :=
  s.setHost { s.world.host with bridges := s.world.host.bridges.setIfInBounds i bridge }

/-- The session with another source under a number. -/
def setSource (s : Session) (i : Nat) (source : Source) : Session :=
  { s with library := ⟨s.library.sources.setIfInBounds i source⟩ }

/-- Goes on with a pool. -/
def onPool (s : Session) (i : Nat) (k : Pool → Reply) : Reply :=
  s.found "pool" s.world.host.pools[i]? k

/-- Goes on with a bridge. -/
def onBridge (s : Session) (i : Nat) (k : Bridge → Reply) : Reply :=
  s.found "bridge" s.world.host.bridges[i]? k

/-- Goes on with a source. -/
def onSource (s : Session) (i : Nat) (k : Source → Reply) : Reply :=
  s.found "source" s.library.sources[i]? k

/-- Runs an operation of an engine. -/
def deploy {α : Type} (s : Session) (engine : Nat)
    (f : Definer → Deployment Log → Except Failure α × Deployment Log)
    (k : Session → α → Reply) : Reply :=
  let (result, world) := s.world.deploy engine f
  let s := { s with world }
  match result with
  | .ok a => k s a
  | .error e => s.fail e

/-- The bytes of an image. A key without an image means the image of the replacement under it. -/
def imageOf (s : Session) : ImageOrigin → Except Error (List UInt8)
  | .bytes image => .ok image
  | .ofClass decl => decl.encode
  | .saved key =>
    match (s.images.get? key).or ((s.replacements.get? key).map (·.image)) with
    | some image => .ok image
    | none => .error (.custom "no such image")

/-- A replacement. -/
def replacementOf (s : Session) : ReplacementOrigin → Except Error Replacement
  | .saved key =>
    match s.replacements.get? key with
    | some replacement => .ok replacement
    | none => .error (.custom "no such replacement")
  | .pair cls image => (s.imageOf image).map (⟨cls, ·⟩)

/-- Keeps something under a key of a table, if there is one. -/
def keep {α : Type} (key : Option String) (a : α) (table : Table String α) : Table String α :=
  match key with
  | none => table
  | some key => table.put key a

/-- The number of redefinitions of each class. -/
def withRedefinitions (s : Session) (classes : List ClassId) : Answer :=
  .redefined (classes.map fun id ↦ (id, (s.machine.cls id).redefinitions))

/-- Adds a class to a source: the new size of the source, or the path of the file below the root. -/
def addClass (s : Session) (i : Nat) (decl : ClassDecl) : Reply :=
  s.onSource i fun source ↦
    let (result, source) := source.store decl
    let s := s.setSource i source
    s.whenOk result fun _ ↦
      match source with
      | .memory images => s.answer (.size images.size)
      | .directory root _ =>
        let path := ImagePath.path root decl.name.toList
        let below := if (root ++ ['/']).isPrefixOf path then path.drop (root.length + 1) else path
        s.answer (.text (String.ofList below))

/-- The answer about a class. -/
def classInfo (s : Session) (id : ClassId) : Reply :=
  let m := s.machine
  let c := m.cls id
  s.answer (.classInfo ⟨id, c.superclass?, m.describeClass id, c.isSystem, c.redefinitions,
    m.instanceFields id, c.decl⟩)

/-- The answer about a record that a lookup gave. -/
def recordAnswer (s : Session) (i : Nat) (name : String) (id : RecordId) (p : Pool) : Reply :=
  let s := s.setPool i p
  s.found "record" (p.record? id) fun r ↦
    if r.broken then s.error .lock
    else
      let same := match p.get s.library name with
        | .ok (again, _) => again == id
        | .error _ => false
      s.answer (.record same r.type.frozen r.type.decl)

/-- Makes edits in turn, whatever becomes of those before. -/
def editAll (lib : Library) :
    List Edit → Editing Unit → List (Except Failure EditAnswer) × Editing Unit
  | [], e => ([], e)
  | edit :: rest, e =>
    let (answer, e) := Edit.run lib none edit e
    let (answers, e) := editAll lib rest e
    (answer :: answers, e)

/-- Edits the record of a name while it is held. An edit that aborts is caught by itself, so that
the record stays usable. -/
def poolEdit (s : Session) (i : Nat) (name : String) (edits : List Edit) : Reply :=
  s.onPool i fun p ↦
    s.whenOk (p.get s.library name) fun (id, p) ↦
      let s := s.setPool i p
      s.found "record" (p.record? id) fun r ↦
        if r.broken then s.error .lock
        else
          let (answers, e) := editAll s.library edits ⟨r.type, p, ()⟩
          (s.setPool i (e.pool.modify id fun r ↦ { r with type := e.type })).answer
            (.edits answers e.type.frozen)

/-- Resolves the method of a patch. -/
def resolve (s : Session) (i : Nat) (sketch : PatchSketch) : Reply :=
  s.whenOk sketch.build fun patch ↦
    s.onPool i fun p ↦
      s.whenOk (p.get s.library patch.target) fun (id, p) ↦
        let s := s.setPool i p
        s.found "record" (p.record? id) fun r ↦
          if r.broken then s.error .lock
          else
            let (result, p) := patch.resolve s.library p r.type
            let s := s.setPool i p
            s.whenOk result fun method ↦ s.answer (.resolved method)

/-- Calls a method. -/
def invoke (s : Session) (descriptor : String)
    (call : World Workshop → MethodTy → Except Failure Value × World Workshop) : Reply :=
  s.whenOk (MethodTy.ofDescriptor descriptor) fun type ↦
    let (result, world) := call s.world type
    let s := { s with world }
    match result with
    | .ok v => s.answer (.value v)
    | .error e => s.fail e

/-- Registers a native under a name. -/
def register (s : Session) (name : String) (native : NativeSketch) : Reply :=
  match native with
  | .kind k => { s with natives := s.natives.put name k }.answer .done
  | .patch sketch redefine engine =>
    s.whenOk sketch.build fun p ↦
      { s with natives := s.natives.put name (.patch p redefine engine) }.answer .done

/-- The answer about the bridge of a number. -/
def bridgeAnswer (s : Session) (i : Nat) : Reply :=
  s.onBridge i fun b ↦ s.answer (.bridge b.isAttached b.calls)

/-- Runs a command on a session. -/
def exec (s : Session) : Command → Reply
  | .addClass i decl => s.addClass i decl
  | .addImage i name origin =>
    s.onSource i fun source ↦
      s.whenOk (s.imageOf origin) fun image ↦
        let source := source.add name image
        (s.setSource i source).answer (.size source.size)
  | .findImage i name =>
    s.onSource i fun source ↦
      s.whenOk (source.find name) fun image ↦
        s.answer (match image with
          | some bytes => .image bytes
          | none => .absent)
  | .appendToMachine i =>
    (s.setMachine { s.machine with classpath := s.machine.classpath ++ [i] }).answer .done
  | .config => s.answer (.config s.machine.config s.machine.description)
  | .load name =>
    s.whenOk (s.machine.load s.library name) fun (id, m) ↦ (s.setMachine m).answer (.cls id)
  | .findLoaded name =>
    s.answer (match s.machine.findLoaded name with
      | some id => .cls id
      | none => .absent)
  | .define origin =>
    s.whenOk (s.imageOf origin) fun image ↦
      s.whenOk (s.machine.define s.library image) fun (id, m) ↦ (s.setMachine m).answer (.cls id)
  | .classCount => s.answer (.number s.machine.classCount)
  | .register name native => s.register name native
  | .new cls =>
    s.onMachine (Machine.allocate cls) fun s o ↦ s.answer (.value (.ref o))
  | .invokeVirtual o name d args =>
    s.invoke d fun w type ↦ w.invokeVirtual s.surroundings o name type args
  | .invokeStatic cls name d args =>
    s.invoke d fun w type ↦ w.invokeStatic s.surroundings cls name type args
  | .getStatic cls name =>
    s.withMachine (s.machine.getStatic cls name) fun v ↦ s.answer (.value v)
  | .ownStatic cls name =>
    s.withMachine ((s.machine.cls cls).getStatic name) fun v ↦ s.answer (.value v)
  | .setStatic cls name v =>
    s.onMachine (Machine.setStatic cls name v) fun s _ ↦ s.answer .done
  | .staticHolder cls name =>
    s.answer (match s.machine.staticHolder cls name with
      | some id => .cls id
      | none => .absent)
  | .getField o name => s.withMachine (s.machine.getField o name) fun v ↦ s.answer (.value v)
  | .setField o name v =>
    s.onMachine (Machine.setField o name v) fun s _ ↦ s.answer .done
  | .object o => s.answer (.object o (s.machine.object o).cls (s.machine.describeObject o))
  | .classInfo cls => s.classInfo cls
  | .lookup cls name d =>
    s.whenOk (MethodTy.ofDescriptor d) fun type ↦
      s.answer (match s.machine.lookupMethod cls name type with
        | some (owner, m) => .method owner m
        | none => .absent)
  | .subclass cls ancestor =>
    s.answer (.relation (s.machine.isSubclass cls ancestor) (cls == ancestor)
      (if cls = ancestor then 1 else 2))
  | .newPool sources =>
    let host := s.world.host
    (s.setHost { host with pools := host.pools.push (.new sources) }).answer
      (.number host.pools.size)
  | .appendToPool i source =>
    s.onPool i fun p ↦ (s.setPool i (p.append source)).answer .done
  | .poolSize i => s.onPool i fun p ↦ s.answer (.size p.size)
  | .poolContains i name => s.onPool i fun p ↦ s.answer (.flag (p.contains name))
  | .poolGet i name =>
    s.onPool i fun p ↦
      s.whenOk (p.get s.library name) fun (id, p) ↦ s.recordAnswer i name id p
  | .poolGetOrNone i name =>
    s.onPool i fun p ↦
      s.whenOk (p.get? s.library name) fun (id, p) ↦
        match id with
        | some id => s.recordAnswer i name id p
        | none => s.answer .absent
  | .poolInsert i decl =>
    s.onPool i fun p ↦
      s.whenOk (p.insert decl) fun (id, p) ↦
        let s := s.setPool i p
        s.found "record" (p.record? id) fun r ↦ s.answer (.inserted r.type.frozen r.type.decl.name)
  | .poolEdit i name edits => s.poolEdit i name edits
  | .typeNames i names =>
    s.onPool i fun p ↦
      let (result, p) := p.resolveNames s.library names
      let s := s.setPool i p
      s.whenOk result fun types ↦ s.answer (.descriptors (types.map Ty.descriptor))
  | .reflectedTypes i types =>
    s.onPool i fun p ↦
      let (result, p) := p.resolveReflected s.library types
      (s.setPool i p).answer (.reflected (types.map Reflected.sourceName)
        (result.map (·.map Ty.descriptor)))
  | .describePatch sketch =>
    s.whenOk sketch.build fun p ↦ s.answer (.patch p.target p.method (s.machine.describePatch p))
  | .resolve i sketch => s.resolve i sketch
  | .newBridge kind failures failure =>
    let host := s.world.host
    let bridge := Bridge.new (.failingFirst failures failure kind.agent)
    (s.setHost { host with bridges := host.bridges.push bridge }).answer
      (.number host.bridges.size)
  | .newEngine pool bridge definer =>
    let host := s.world.host
    let definer : Definer := match definer with
      | .machine => .ofMachine
      | .refusing refusal => .refusing refusal
    (s.setHost { host with engines := host.engines.push ⟨pool, bridge, definer⟩ }).answer
      (.number host.engines.size)
  | .engine i =>
    s.found "engine" s.world.host.engines[i]? fun e ↦
      s.onPool e.pool fun p ↦
        s.onBridge e.bridge fun b ↦
          s.answer (.engine p.size b.isAttached (describeEngine p b))
  | .bridge i => s.bridgeAnswer i
  | .attach i =>
    s.onBridge i fun b ↦
      let (result, b) := b.obtain s.machine
      let s := s.setBridge i b
      s.whenOk result fun _ ↦ s.bridgeAnswer i
  | .apply i sketch redefine =>
    s.whenOk sketch.build fun p ↦
      s.deploy i (fun definer d ↦ d.apply s.library definer p redefine) fun s id ↦
        let c := s.machine.cls id
        s.answer (.applied id c.redefinitions c.isSystem)
  | .image i sketch key =>
    s.whenOk sketch.build fun p ↦
      s.deploy i (fun _ d ↦ d.image s.library p) fun s image ↦
        { s with images := keep key image s.images }.answer
          (.patched image (ClassDecl.decode image))
  | .definition i sketch key =>
    s.whenOk sketch.build fun p ↦
      s.deploy i (fun definer d ↦ d.definition s.library definer p) fun s u ↦
        { s with replacements := keep key u s.replacements }.answer
          (.definition u.cls u.image (s.machine.describeReplacement u))
  | .applyAll i sketches =>
    s.whenOk (sketches.mapM PatchSketch.build) fun patches ↦
      s.deploy i (fun definer d ↦ d.applyAll s.library definer patches) fun s classes ↦
        s.answer (s.withRedefinitions classes)
  | .redefine i origins =>
    s.whenOk (origins.mapM s.replacementOf) fun batch ↦
      s.onBridge i fun b ↦
        let (result, b, m) := b.redefine s.machine batch
        let s := (s.setBridge i b).setMachine m
        s.whenOk result fun classes ↦ s.answer (s.withRedefinitions classes)
  | .doubleBody i target method redefine =>
    s.whenOk (Patch.build target (some method) [] (some doubling)) fun p ↦
      s.deploy i (fun definer d ↦ d.apply s.library definer p redefine) fun s id ↦
        s.answer (.cls id)

/-- Runs a command with an empty log, so that the log is that of the command. -/
def step (s : Session) (c : Command) : Reply :=
  (s.setHost { s.world.host with log := #[] }).exec c

end Session

end Hotswap
