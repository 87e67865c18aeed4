import Hotswap.Machine.CallStack

/-!
# Invocations

An invocation is a stack of frames, of which the innermost one runs. Each step executes one
instruction. Two limits cut an invocation short: the number of calls that are active at once and
the number of instructions over all of them.
-/

namespace Hotswap

/-- An invocation that has not ended: the frame that runs, those that wait for it, and the
world. -/
structure Invocation (σ : Type) where
  current : Frame
  callers : CallStack
  world : World σ

/-- How far an invocation is after a step. -/
inductive Progress (σ : Type) where
  | running (i : Invocation σ)
  | ended (result : Except Failure Value) (w : World σ)

namespace Invocation

variable {σ : Type}

/-- Begins a call if not too many are active. -/
def enter (callee : Frame) (callers : CallStack) (w : World σ) : Progress σ :=
  let limit := w.machine.config.limits.maxCallDepth
  if limit ≤ callers.size then .ended (.error (.error (.machine (.callDepthExceeded limit)))) w
  else .running ⟨callee, callers, w⟩

/-- Hands the value of a call to its caller, which pushes it if the method returns one. -/
def leave (returnsValue : Bool) (callers : CallStack) (v : Value) (w : World σ) : Progress σ :=
  match callers.pop? with
  | none => .ended (.ok v) w
  | some (caller, rest) => .running ⟨if returnsValue then caller.push v else caller, rest, w⟩

/-- Takes over what came of an instruction of a method that returns a value or does not. -/
def settle (returnsValue : Bool) (callers : CallStack) : Outcome σ → Progress σ
  | .next f w => .running ⟨f, callers, w⟩
  | .call caller callee w => enter callee (callers.push caller) w
  | .leave v w => leave returnsValue callers v w
  | .fail e w => .ended (.error e) w

/-- The next instruction, unless execution is past the end of the code. -/
def next? (i : Invocation σ) : Option Instruction := i.current.code[i.current.pc]?

/-- Executes an instruction of the frame that runs. -/
def step (s : Surroundings σ) (i : Invocation σ) (instruction : Instruction) : Progress σ :=
  match i with
  | ⟨f, callers, w⟩ =>
    settle f.method.type.returnsValue callers
      (Frame.execute s { f with pc := f.pc + 1 } w instruction)

/-- The failure of an invocation that is past the end of the code. -/
def endOfCode (i : Invocation σ) : Failure :=
  .error (.machine (.typeMismatch (.endOfCode i.current.method.signature)))

/-- Executes at most `fuel` instructions; `budget` is the limit to report when one more would be
needed. -/
def run (s : Surroundings σ) (budget : Nat) :
    Nat → Invocation σ → Except Failure Value × World σ
  | fuel, i =>
    match i.next? with
    | none => (.error i.endOfCode, i.world)
    | some instruction =>
      match fuel with
      | 0 => (.error (.error (.machine (.instructionLimit budget))), i.world)
      | fuel + 1 =>
        match i.step s instruction with
        | .running i => run s budget fuel i
        | .ended result w => (result, w)

end Invocation

/-- The number of instructions that an invocation may execute. Without a limit it is as many as a
counter of 64 bits counts. -/
def Limits.fuel (l : Limits) : Nat :=
  if l.maxInstructions = 0 then UInt64.size - 1 else l.maxInstructions

namespace Entry

variable {σ : Type}

/-- Runs what was entered to its end. -/
def run (s : Surroundings σ) : Entry σ → Except Failure Value × World σ
  | .result v w => (.ok v, w)
  | .fail e w => (.error e, w)
  | .frame callee w =>
    let limits := w.machine.config.limits
    match Invocation.enter callee .empty w with
    | .running i => i.run s limits.maxInstructions limits.fuel
    | .ended r w => (r, w)

end Entry

/-- Calls a method of an object. -/
def World.invokeVirtual {σ : Type} (w : World σ) (s : Surroundings σ) (receiver : ObjectId)
    (name : String) (type : MethodTy) (args : List Value) : Except Failure Value × World σ :=
  (Entry.virtual s receiver name type args w).run s

/-- Calls a static method of a class or of one of its ancestors. -/
def World.invokeStatic {σ : Type} (w : World σ) (s : Surroundings σ) (cls : ClassId)
    (name : String) (type : MethodTy) (args : List Value) : Except Failure Value × World σ :=
  (Entry.static s cls name type args w).run s

end Hotswap
