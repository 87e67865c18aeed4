import Hotswap.Machine.Frame

/-!
# What comes of instructions

One case rule for each step that instructions are made of: what holds of every way in which a step
goes on, and of its failures, holds of the step. Facts about all instructions follow from them.
-/

namespace Hotswap

namespace Outcome

variable {σ : Type} {P : Outcome σ → Prop} {f : Frame} {w : World σ}

/-- The world behind an instruction. -/
def world : Outcome σ → World σ
  | next _ w => w
  | call _ _ w => w
  | leave _ w => w
  | fail _ w => w

/-- The method is not left with a value. -/
def Remains : Outcome σ → Prop
  | leave _ _ => False
  | _ => True

theorem withValue_cases {α : Type} {r : Except MachineError α} {k : α → Outcome σ}
    (herror : ∀ e, r = .error e → P (machineError e w)) (hok : ∀ a, r = .ok a → P (k a)) :
    P (withValue r w k) := by
  cases r with
  | ok a => exact hok a rfl
  | error e => exact herror e rfl

theorem onMachine_cases {α : Type} {operation : Machine → Except MachineError α × Machine}
    {k : α → World σ → Outcome σ}
    (herror : ∀ e m, operation w.machine = (.error e, m) → P (machineError e ⟨m, w.host⟩))
    (hok : ∀ a m, operation w.machine = (.ok a, m) → P (k a ⟨m, w.host⟩)) :
    P (onMachine operation w k) := by
  obtain ⟨machine, host⟩ := w
  simp only [onMachine]
  split
  · next a m h => exact hok a m h
  · next e m h => exact herror e m h

theorem pop1_cases {k : Value → Frame → Outcome σ}
    (hnil : f.stack = [] → P (underflow f w))
    (hcons : ∀ v stack, f.stack = v :: stack → P (k v { f with stack })) : P (pop1 f w k) := by
  unfold pop1
  split
  · next v stack h => exact hcons v stack h
  · next h => exact hnil h

theorem pop2_cases {k : Value → Value → Frame → Outcome σ}
    (hshort : f.stack.length < 2 → P (underflow f w))
    (hcons : ∀ left right stack, f.stack = right :: left :: stack →
      P (k left right { f with stack })) : P (pop2 f w k) := by
  unfold pop2
  split
  · next right left stack h => exact hcons left right stack h
  · next h =>
    apply hshort
    match hs : f.stack with
    | [] => simp
    | [_] => simp
    | right :: left :: stack => exact absurd hs (h right left stack)

theorem popArguments_cases {n : Nat} {k : List Value → Frame → Outcome σ}
    (hshort : f.stack.length < n → P (underflow f w))
    (hall : n ≤ f.stack.length →
      P (k (f.stack.take n).reverse { f with stack := f.stack.drop n })) :
    P (popArguments n f w k) := by
  unfold popArguments
  split
  · next h => exact hall h
  · next h => exact hshort (Nat.lt_of_not_le h)

theorem resolve_cases {s : Surroundings σ} {name : String} {k : ClassId → World σ → Outcome σ}
    (herror : ∀ e, w.machine.resolve s.library f.cls name = .error e → P (error e w))
    (hok : ∀ id m, w.machine.resolve s.library f.cls name = .ok (id, m) →
      P (k id { w with machine := m })) : P (resolve s f name w k) := by
  unfold resolve
  split
  · next id m h => exact hok id m h
  · next e h => exact herror e h

theorem resolveStatic_cases {s : Surroundings σ} {field : FieldRef}
    {k : ClassId → World σ → Outcome σ}
    (herror : ∀ e, w.machine.resolve s.library f.cls field.owner = .error e → P (error e w))
    (hnone : ∀ id m, w.machine.resolve s.library f.cls field.owner = .ok (id, m) →
      P (machineError (.noSuchField field.owner field.name) { w with machine := m }))
    (hok : ∀ id m owner, w.machine.resolve s.library f.cls field.owner = .ok (id, m) →
      P (k owner { w with machine := m })) : P (resolveStatic s f field w k) := by
  refine resolve_cases herror fun id m h ↦ ?_
  split
  · next owner _ => exact hok id m owner h
  · exact hnone id m h

end Outcome

namespace Frame

variable {σ : Type} {s : Surroundings σ} {w : World σ}

theorem remains_toOutcome (entry : Entry σ) (f : Frame) (type : MethodTy) :
    (entry.toOutcome f type).Remains := by
  cases entry <;> trivial

/-- Only a return leaves its method. -/
theorem remains_execute {i : Instruction} (hi : i.flow ≠ .leave) (f : Frame) :
    (execute s f w i).Remains := by
  cases i with
  | nop | const | jump => trivial
  | ret | retValue => exact absurd rfl hi
  | pop | dup =>
    rw [execute]
    exact Outcome.pop1_cases (fun _ ↦ trivial) fun _ _ _ ↦ trivial
  | load index =>
    simp only [execute, load]
    split <;> trivial
  | store index =>
    rw [execute, store]
    refine Outcome.pop1_cases (fun _ ↦ trivial) fun _ _ _ ↦ ?_
    split <;> trivial
  | cmpEq =>
    rw [execute]
    exact Outcome.pop2_cases (fun _ ↦ trivial) fun _ _ _ _ ↦ trivial
  | arithmetic | cmpLt =>
    rw [execute]
    refine Outcome.pop2_cases (fun _ ↦ trivial) fun _ _ _ _ ↦ ?_
    exact Outcome.withValue_cases (fun _ _ ↦ trivial) fun _ _ ↦ trivial
  | jumpIf =>
    rw [execute, jumpIf]
    refine Outcome.pop1_cases (fun _ ↦ trivial) fun _ _ _ ↦ ?_
    exact Outcome.withValue_cases (fun _ _ ↦ trivial) fun _ _ ↦ trivial
  | new className =>
    rw [execute, new]
    refine Outcome.resolve_cases (fun _ _ ↦ trivial) fun _ _ _ ↦ ?_
    exact Outcome.onMachine_cases (fun _ _ _ ↦ trivial) fun _ _ _ ↦ trivial
  | getField =>
    rw [execute, getField]
    refine Outcome.pop1_cases (fun _ ↦ trivial) fun _ _ _ ↦ ?_
    refine Outcome.withValue_cases (fun _ _ ↦ trivial) fun _ _ ↦ ?_
    exact Outcome.withValue_cases (fun _ _ ↦ trivial) fun _ _ ↦ trivial
  | putField =>
    rw [execute, putField]
    refine Outcome.pop2_cases (fun _ ↦ trivial) fun _ _ _ _ ↦ ?_
    refine Outcome.withValue_cases (fun _ _ ↦ trivial) fun _ _ ↦ ?_
    exact Outcome.onMachine_cases (fun _ _ _ ↦ trivial) fun _ _ _ ↦ trivial
  | getStatic =>
    rw [execute, getStatic]
    refine Outcome.resolveStatic_cases (fun _ _ ↦ trivial) (fun _ _ _ ↦ trivial) fun _ _ _ _ ↦ ?_
    exact Outcome.withValue_cases (fun _ _ ↦ trivial) fun _ _ ↦ trivial
  | putStatic =>
    rw [execute, putStatic]
    refine Outcome.pop1_cases (fun _ ↦ trivial) fun _ _ _ ↦ ?_
    refine Outcome.resolveStatic_cases (fun _ _ ↦ trivial) (fun _ _ _ ↦ trivial) fun _ _ _ _ ↦ ?_
    exact Outcome.onMachine_cases (fun _ _ _ ↦ trivial) fun _ _ _ ↦ trivial
  | invokeVirtual =>
    rw [execute, invokeVirtual]
    refine Outcome.popArguments_cases (fun _ ↦ trivial) fun _ ↦ ?_
    refine Outcome.pop1_cases (fun _ ↦ trivial) fun _ _ _ ↦ ?_
    exact Outcome.withValue_cases (fun _ _ ↦ trivial) fun _ _ ↦ remains_toOutcome _ _ _
  | invokeStatic =>
    rw [execute, invokeStatic]
    refine Outcome.popArguments_cases (fun _ ↦ trivial) fun _ ↦ ?_
    exact Outcome.resolve_cases (fun _ _ ↦ trivial) fun _ _ _ ↦ remains_toOutcome _ _ _
  | callNative =>
    rw [execute, callNative]
    exact Outcome.popArguments_cases (fun _ ↦ trivial) fun _ ↦ remains_toOutcome _ _ _

end Frame

end Hotswap
