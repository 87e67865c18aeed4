import Hotswap.Machine.Load

/-!
# Frames

A frame is one active call: the class and the method that it runs, the code that it began with, its
locals and its operand stack, the top first. An instruction works on the frame and on the world
around it, which is the machine and whatever state the natives keep. It goes on in the frame,
begins another call, leaves the call or fails.
-/

namespace Hotswap

/-- What surrounds the frames: the machine and the state of the natives. -/
structure World (σ : Type) where
  machine : Machine
  host : σ

/-- How a native ends. -/
inductive NativeEnd where
  | value (v : Value)
  | failed (message : String)
  | aborted
  deriving DecidableEq, Repr

/-- A native: what it does with its arguments to the world. -/
abbrev Native (σ : Type) := List Value → World σ → NativeEnd × World σ

/-- What code can reach beyond the world: the images of classes and the registered natives. -/
structure Surroundings (σ : Type) where
  library : Library
  native? : String → Option (Native σ)
  /-- Where an object lies. Code sees that in the text of the object only. -/
  address : ObjectId → Nat

/-- An active call. -/
structure Frame where
  cls : ClassId
  method : MethodDecl
  /-- The code that the method had when the call began. -/
  code : Array Instruction
  /-- The index of the next instruction. -/
  pc : Nat
  locals : Array Value
  /-- The operand stack, the top first. -/
  stack : List Value
  deriving Repr

/-- What comes of an instruction or a call. -/
inductive Outcome (σ : Type) where
  /-- The frame goes on. -/
  | next (f : Frame) (w : World σ)
  /-- The frame waits for another one. -/
  | call (caller callee : Frame) (w : World σ)
  /-- The call ends with a value. -/
  | leave (v : Value) (w : World σ)
  /-- The whole invocation fails. -/
  | fail (e : Failure) (w : World σ)

/-- What comes of entering a method: another frame, or a result at once. -/
inductive Entry (σ : Type) where
  | frame (callee : Frame) (w : World σ)
  | result (v : Value) (w : World σ)
  | fail (e : Failure) (w : World σ)

namespace Frame

variable {σ : Type}

/-- Pushes a value. -/
def push (f : Frame) (v : Value) : Frame := { f with stack := v :: f.stack }

/-- Goes on with another instruction. -/
def goTo (f : Frame) (target : UInt32) : Frame := { f with pc := target.toNat }

/-- The class and the method of a frame, for messages. -/
def describe (f : Frame) (m : Machine) : String :=
  m.className f.cls ++ "." ++ f.method.signature

end Frame

namespace Outcome

variable {σ : Type}

/-- The invocation fails with an error. -/
def error (e : Error) (w : World σ) : Outcome σ := fail (.error e) w

/-- The invocation fails with an error of the machine. -/
def machineError (e : MachineError) (w : World σ) : Outcome σ := error (.machine e) w

/-- The operand stack of a frame holds too little. -/
def underflow (f : Frame) (w : World σ) : Outcome σ :=
  machineError (.stackUnderflow (f.describe w.machine)) w

/-- Goes on with the value of a computation of the machine. -/
def withValue {α : Type} (r : Except MachineError α) (w : World σ) (k : α → Outcome σ) :
    Outcome σ :=
  match r with
  | .ok a => k a
  | .error e => machineError e w

/-- Goes on with what an operation comes to that may change the machine. -/
def onMachine {α : Type} (operation : Machine → Except MachineError α × Machine) (w : World σ)
    (k : α → World σ → Outcome σ) : Outcome σ :=
  match w with
  | ⟨machine, host⟩ =>
    match operation machine with
    | (.ok a, machine) => k a ⟨machine, host⟩
    | (.error e, machine) => machineError e ⟨machine, host⟩

/-- Pops a value. -/
def pop1 (f : Frame) (w : World σ) (k : Value → Frame → Outcome σ) : Outcome σ :=
  match f.stack with
  | v :: stack => k v { f with stack }
  | [] => underflow f w

/-- Pops two values; the lower one is the first. -/
def pop2 (f : Frame) (w : World σ) (k : Value → Value → Frame → Outcome σ) : Outcome σ :=
  match f.stack with
  | right :: left :: stack => k left right { f with stack }
  | _ => underflow f w

/-- Pops arguments; the lowest one is the first. -/
def popArguments (n : Nat) (f : Frame) (w : World σ) (k : List Value → Frame → Outcome σ) :
    Outcome σ :=
  if n ≤ f.stack.length then
    k (f.stack.take n).reverse { f with stack := f.stack.drop n }
  else underflow f w

/-- Resolves a class name in the code of a frame. -/
def resolve (s : Surroundings σ) (f : Frame) (name : String) (w : World σ)
    (k : ClassId → World σ → Outcome σ) : Outcome σ :=
  match w.machine.resolve s.library f.cls name with
  | .ok (id, machine) => k id { w with machine }
  | .error e => error e w

/-- Resolves a static field in the code of a frame, to the class that holds it. -/
def resolveStatic (s : Surroundings σ) (f : Frame) (field : FieldRef) (w : World σ)
    (k : ClassId → World σ → Outcome σ) : Outcome σ :=
  resolve s f field.owner w fun id w ↦
    match w.machine.staticHolder id field.name with
    | some owner => k owner w
    | none => machineError (.noSuchField field.owner field.name) w

end Outcome

namespace Entry

variable {σ : Type}

/-- Entering fails with an error of the machine. -/
def machineError (e : MachineError) (w : World σ) : Entry σ := fail (.error (.machine e)) w

/-- Runs a native. -/
def native (s : Surroundings σ) (name : String) (type : MethodTy) (args : List Value)
    (w : World σ) : Entry σ :=
  match s.native? name with
  | none => machineError (.nativeNotFound name) w
  | some n =>
    match n args w with
    | (.value v, w) => result (if type.returnsValue then v else .void) w
    | (.failed message, w) => machineError (.nativeFailed name message) w
    | (.aborted, w) => fail .aborted w

/-- Enters a method that a class declares, with the receiver among the arguments. -/
def method (s : Surroundings σ) (cls : ClassId) (m : MethodDecl) (args : List Value)
    (w : World σ) : Entry σ :=
  if args.length ≠ m.argumentSlots then
    machineError (.typeMismatch (.arguments m.argumentSlots args.length)) w
  else if m.isNative then
    native s (w.machine.className cls ++ "." ++ m.name) m.type args w
  else
    match m.body with
    | none => machineError (.abstractMethod (w.machine.className cls) m.signature) w
    | some b =>
      let locals := args.toArray ++ Array.replicate (b.maxLocals.toNat - args.length) .void
      frame ⟨cls, m, b.code.toArray, 0, locals, []⟩ w

/-- Enters the method that a class declares or inherits, if it is static or not as wanted. -/
def lookup (s : Surroundings σ) (start : ClassId) (name : String) (type : MethodTy)
    (static : Bool) (args : List Value) (w : World σ) : Entry σ :=
  let miss (m : LookupMiss) : Entry σ :=
    machineError (.noSuchMethod (w.machine.className start) (name ++ type.descriptor) m) w
  match w.machine.lookupMethod start name type with
  | none => miss .absent
  | some (owner, m) =>
    if m.isStatic == static then method s owner m args w
    else miss (if static then .isInstance else .isStatic)

/-- Enters a method of an object. -/
def virtual (s : Surroundings σ) (receiver : ObjectId) (name : String) (type : MethodTy)
    (args : List Value) (w : World σ) : Entry σ :=
  lookup s (w.machine.object receiver).cls name type false (.ref receiver :: args) w

/-- Enters a static method. -/
def static (s : Surroundings σ) (cls : ClassId) (name : String) (type : MethodTy)
    (args : List Value) (w : World σ) : Entry σ :=
  lookup s cls name type true args w

/-- What entering a method comes to in the frame that calls it. -/
def toOutcome (entry : Entry σ) (caller : Frame) (type : MethodTy) : Outcome σ :=
  match entry with
  | frame callee w => .call caller callee w
  | result v w => .next (if type.returnsValue then caller.push v else caller) w
  | fail e w => .fail e w

end Entry

namespace Frame

variable {σ : Type}

/-- Pushes a local. -/
def load (f : Frame) (index : UInt16) (w : World σ) : Outcome σ :=
  match f.locals[index.toNat]? with
  | some v => .next (f.push v) w
  | none => .machineError (.typeMismatch (.localIndex index)) w

/-- Pops into a local. -/
def store (f : Frame) (index : UInt16) (w : World σ) : Outcome σ :=
  .pop1 f w fun v f ↦
    if index.toNat < f.locals.size then
      .next { f with locals := f.locals.setIfInBounds index.toNat v } w
    else .machineError (.typeMismatch (.localIndex index)) w

/-- Pops a value and branches if it meets a condition. -/
def jumpIf (f : Frame) (condition : Condition) (target : UInt32) (w : World σ) : Outcome σ :=
  .pop1 f w fun v f ↦
    .withValue v.isZero w fun zero ↦
      .next (if zero == (condition == .zero) then f.goTo target else f) w

/-- Pushes a new object of a class. -/
def new (s : Surroundings σ) (f : Frame) (className : String) (w : World σ) : Outcome σ :=
  .resolve s f className w fun id w ↦
    .onMachine (Machine.allocate id) w fun object w ↦ .next (f.push (.ref object)) w

/-- Pops an object and pushes one of its fields. -/
def getField (f : Frame) (field : FieldRef) (w : World σ) : Outcome σ :=
  .pop1 f w fun v f ↦
    .withValue v.asObject w fun object ↦
      .withValue (w.machine.getField object field.name) w fun v ↦ .next (f.push v) w

/-- Pops a value and an object and stores the value. -/
def putField (f : Frame) (field : FieldRef) (w : World σ) : Outcome σ :=
  .pop2 f w fun object v f ↦
    .withValue object.asObject w fun object ↦
      .onMachine (Machine.setField object field.name v) w fun _ w ↦ .next f w

/-- Pushes a static field. -/
def getStatic (s : Surroundings σ) (f : Frame) (field : FieldRef) (w : World σ) : Outcome σ :=
  .resolveStatic s f field w fun owner w ↦
    .withValue ((w.machine.cls owner).getStatic field.name) w fun v ↦ .next (f.push v) w

/-- Pops into a static field. -/
def putStatic (s : Surroundings σ) (f : Frame) (field : FieldRef) (w : World σ) : Outcome σ :=
  .pop1 f w fun v f ↦
    .resolveStatic s f field w fun owner w ↦
      .onMachine (Machine.setStatic owner field.name v) w fun _ w ↦ .next f w

/-- Pops arguments and an object and calls a method of the object. -/
def invokeVirtual (s : Surroundings σ) (f : Frame) (m : MethodRef) (w : World σ) : Outcome σ :=
  .popArguments m.type.params.length f w fun args f ↦
    .pop1 f w fun v f ↦
      .withValue v.asObject w fun receiver ↦
        (Entry.virtual s receiver m.name m.type args w).toOutcome f m.type

/-- Pops arguments and calls a static method. -/
def invokeStatic (s : Surroundings σ) (f : Frame) (m : MethodRef) (w : World σ) : Outcome σ :=
  .popArguments m.type.params.length f w fun args f ↦
    .resolve s f m.owner w fun id w ↦
      (Entry.static s id m.name m.type args w).toOutcome f m.type

/-- Pops arguments and calls a native. -/
def callNative (s : Surroundings σ) (f : Frame) (n : NativeRef) (w : World σ) : Outcome σ :=
  .popArguments n.type.params.length f w fun args f ↦
    (Entry.native s n.name n.type args w).toOutcome f n.type

/-- Executes an instruction in a frame that is already past it. -/
def execute (s : Surroundings σ) (f : Frame) (w : World σ) : Instruction → Outcome σ
  | .nop => .next f w
  | .pop => .pop1 f w fun _ f ↦ .next f w
  | .dup => .pop1 f w fun v f ↦ .next ((f.push v).push v) w
  | .const c => .next (f.push (.ofConstant c)) w
  | .load index => f.load index w
  | .store index => f.store index w
  | .arithmetic op => .pop2 f w fun left right f ↦
    .withValue (Value.arithmetic (w.machine.text s.address) op left right) w fun v ↦
      .next (f.push v) w
  | .cmpEq => .pop2 f w fun left right f ↦ .next (f.push (.ofBool (left.same right))) w
  | .cmpLt => .pop2 f w fun left right f ↦
    .withValue (left.less right) w fun b ↦ .next (f.push (.ofBool b)) w
  | .jump target => .next (f.goTo target) w
  | .jumpIf condition target => f.jumpIf condition target w
  | .new className => new s f className w
  | .getField field => f.getField field w
  | .putField field => f.putField field w
  | .getStatic field => getStatic s f field w
  | .putStatic field => putStatic s f field w
  | .invokeVirtual m => invokeVirtual s f m w
  | .invokeStatic m => invokeStatic s f m w
  | .callNative n => callNative s f n w
  | .ret => .leave .void w
  | .retValue => .pop1 f w fun v _ ↦ .leave v w

end Frame

end Hotswap
