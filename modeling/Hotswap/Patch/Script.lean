import Hotswap.Patch.Engine

/-!
# Edit scripts

Transformations written as data: a list of edits, which run in turn up to the first that fails. An
edit names a method by its position or means the method that the patch was resolved to.
-/

namespace Hotswap

/-- The method that an edit is for. -/
inductive MethodChoice where
  | position (id : MethodId)
  | resolved
  deriving DecidableEq, Repr

/-- An edit, or a question about the type. -/
inductive Edit where
  | addField (field : FieldDecl)
  | addMethod (method : MethodDecl)
  | insertBefore (method : MethodChoice) (snippet : List Instruction)
  | insertAfter (method : MethodChoice) (snippet : List Instruction)
  | setBody (method : MethodChoice) (code : List Instruction)
  | setFlags (method : MethodChoice) (flags : UInt16)
  | setLocals (method : MethodChoice) (maxLocals : UInt16)
  | replaceBody (method : MethodChoice) (code : List Instruction)
  | thaw
  | finalize
  | isFrozen
  | name
  | decl
  | counts
  | method (method : MethodChoice)
  | declared (name : String) (params : List Ty)
  | declaredBy (name descriptor : String)
  /-- Runs edits for every method that is there at the start. -/
  | each (edits : List Edit)
  | fail (message : String)
  | abort
  | poolGet (name : String)
  | poolInsert (decl : ClassDecl)
  /-- An edit that cannot be made because something that it is given is refused. The method that it
  is for, if any, is asked for first. -/
  | refused (method : Option MethodChoice) (cause : Error)
  deriving Inhabited, Repr

/-- The answer to an edit. -/
inductive EditAnswer where
  | done
  | count (n : Nat)
  | methodId (id : MethodId)
  | position (id : MethodId)
  | image (bytes : List UInt8)
  | flag (b : Bool)
  | text (s : String)
  | decl (c : ClassDecl)
  | counts (fields methods ids : Nat)
  | method (m : Option MethodDecl)
  deriving DecidableEq, Repr

/-- The method that a choice means. -/
def MethodChoice.get (c : MethodChoice) (resolved : Option MethodId) : Except Error MethodId :=
  match c, resolved with
  | position id, _ => .ok id
  | .resolved, some id => .ok id
  | .resolved, none => .error (.custom "no method")

namespace Editing

variable {σ : Type}

/-- What an edit comes to: an answer or a failure, and what is being edited. -/
abbrev Step (σ : Type) := Except Failure EditAnswer × Editing σ

/-- Takes over an edited type. -/
def edited (e : Editing σ) (r : Except Error Editable) : Step σ :=
  match r with
  | .ok type => (.ok .done, { e with type })
  | .error cause => (.error (.error cause), e)

/-- Edits the method that a choice means. -/
def onMethod (e : Editing σ) (resolved : Option MethodId) (choice : MethodChoice)
    (f : MethodId → Except Error Editable) : Step σ :=
  e.edited (choice.get resolved >>= f)

/-- Answers a question. -/
def answered (e : Editing σ) (r : Except Error EditAnswer) : Step σ := (r.mapError .error, e)

/-- Takes over a pool. -/
def pooled (e : Editing σ) (r : Except Error (RecordId × Pool)) : Step σ :=
  match r with
  | .ok (_, pool) => (.ok .done, { e with pool })
  | .error cause => (.error (.error cause), e)

/-- Runs something for every method of a list, up to the first failure. -/
def forMethods (f : MethodId → Editing σ → Except Failure Unit × Editing σ) :
    List MethodId → Editing σ → Except Failure Unit × Editing σ
  | [], e => (.ok (), e)
  | id :: ids, e =>
    match f id e with
    | (.ok _, e) => forMethods f ids e
    | (.error failure, e) => (.error failure, e)

end Editing

mutual

/-- Makes an edit. -/
def Edit.run {σ : Type} (lib : Library) (resolved : Option MethodId) :
    Edit → Editing σ → Editing.Step σ
  | .addField f, e =>
    match e.type.addField f with
    | .ok type => (.ok (.count type.decl.fields.length), { e with type })
    | .error cause => (.error (.error cause), e)
  | .addMethod m, e =>
    match e.type.addMethod m with
    | .ok (type, id) => (.ok (.methodId id), { e with type })
    | .error cause => (.error (.error cause), e)
  | .insertBefore c s, e => e.onMethod resolved c (e.type.insertBefore · s)
  | .insertAfter c s, e => e.onMethod resolved c (e.type.insertAfter · s)
  | .setBody c code, e => e.onMethod resolved c (e.type.setBody · code)
  | .setFlags c flags, e => e.onMethod resolved c (e.type.setFlags · flags)
  | .setLocals c n, e =>
    e.onMethod resolved c (e.type.modifyBody · fun b ↦ .ok { b with maxLocals := n })
  | .replaceBody c code, e =>
    e.onMethod resolved c (e.type.modifyBody · fun b ↦ .ok (b.replace code))
  | .thaw, e => (.ok .done, { e with type := e.type.thaw })
  | .finalize, e =>
    match e.type.finalize with
    | (.ok image, type) => (.ok (.image image), { e with type })
    | (.error cause, type) => (.error (.error cause), { e with type })
  | .isFrozen, e => (.ok (.flag e.type.frozen), e)
  | .name, e => (.ok (.text e.type.decl.name), e)
  | .decl, e => (.ok (.decl e.type.decl), e)
  | .counts, e =>
    (.ok (.counts e.type.decl.fields.length e.type.decl.methods.length e.type.methodIds.length), e)
  | .method c, e => e.answered ((c.get resolved).map fun id ↦ .method (e.type.method? id))
  | .declared n params, e => e.answered ((e.type.declared n params).map .position)
  | .declaredBy n d, e => e.answered ((e.type.declaredBy n d).map .position)
  | .each edits, e =>
    match Editing.forMethods (fun id ↦ Edit.runAll lib (some id) edits) e.type.methodIds e with
    | (.ok _, e) => (.ok .done, e)
    | (.error failure, e) => (.error failure, e)
  | .fail message, e => (.error (.error (.custom message)), e)
  | .abort, e => (.error .aborted, e)
  | .poolGet n, e => e.pooled (e.pool.get lib n)
  | .poolInsert c, e => e.pooled (e.pool.insert c)
  | .refused none cause, e => (.error (.error cause), e)
  | .refused (some c) cause, e => e.onMethod resolved c fun _ ↦ .error cause

/-- Makes edits in turn, up to the first that fails. -/
def Edit.runAll {σ : Type} (lib : Library) (resolved : Option MethodId) :
    List Edit → Editing σ → Except Failure Unit × Editing σ
  | [], e => (.ok (), e)
  | edit :: rest, e =>
    match Edit.run lib resolved edit e with
    | (.ok _, e) => Edit.runAll lib resolved rest e
    | (.error failure, e) => (.error failure, e)

end

end Hotswap
