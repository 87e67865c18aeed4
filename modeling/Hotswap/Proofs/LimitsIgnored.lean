import Hotswap.Proofs.VerifiedRuns

/-!
# What limits do not touch

The limits of a machine are read in two places only: where a call begins and where an instruction is
counted. Everything else that an instruction does is the same under other limits, up to the limits
that the machine then has. So the steps of an invocation are the same ones as long as no call is
refused, which a higher limit on calls refuses even less.
-/

namespace Hotswap

/-! ### The machine -/

namespace Machine

/-- The same machine with other limits. -/
def withLimits (m : Machine) (l : Limits) : Machine :=
  { m with config := { m.config with limits := l } }

@[simp] theorem cls_withLimits (m : Machine) (l : Limits) (id : ClassId) :
    (m.withLimits l).cls id = m.cls id := rfl

@[simp] theorem object_withLimits (m : Machine) (l : Limits) (id : ObjectId) :
    (m.withLimits l).object id = m.object id := rfl

@[simp] theorem findLoaded_withLimits (m : Machine) (l : Limits) (name : String) :
    (m.withLimits l).findLoaded name = m.findLoaded name := rfl

@[simp] theorem findClass_withLimits (m : Machine) (l : Limits) (lib : Library) (name : String) :
    (m.withLimits l).findClass lib name = m.findClass lib name := rfl

/-- Loading does not depend on the limits. -/
theorem loadWithin_withLimits (lib : Library) (levels : Nat) (m : Machine) (name : String)
    (l : Limits) : loadWithin lib levels (m.withLimits l) name =
      (loadWithin lib levels m name).map fun (id, m) ↦ (id, m.withLimits l) := by
  induction levels generalizing name with
  | zero =>
    simp only [loadWithin, findLoaded_withLimits]
    cases m.findLoaded name <;> rfl
  | succ levels ih =>
    simp only [loadWithin, findLoaded_withLimits, findClass_withLimits]
    cases m.findLoaded name with
    | some id => rfl
    | none =>
      dsimp only
      cases m.findClass lib name with
      | error e => rfl
      | ok decl =>
        cases hsuper : decl.superName with
        | none => simp only [bind, Except.bind, hsuper]; rfl
        | some superName =>
          simp only [bind, Except.bind, hsuper, ih]
          cases loadWithin lib levels m superName <;> rfl

/-- Resolving a name does not depend on the limits. -/
theorem resolve_withLimits (m : Machine) (lib : Library) (context : ClassId) (name : String)
    (l : Limits) : (m.withLimits l).resolve lib context name =
      (m.resolve lib context name).map fun (id, m) ↦ (id, m.withLimits l) := by
  unfold resolve
  rw [show (m.withLimits l).className context = m.className context from rfl]
  split
  · rfl
  · exact loadWithin_withLimits lib _ m name l

/-- An operation does the same under all limits. -/
def IgnoresLimits {α : Type} (operation : Machine → α × Machine) : Prop :=
  ∀ m l, operation (m.withLimits l) = ((operation m).1, (operation m).2.withLimits l)

theorem allocate_ignoresLimits (id : ClassId) : IgnoresLimits (allocate id) := by
  intro m l
  unfold allocate
  rw [cls_withLimits]
  split <;> rfl

theorem setField_ignoresLimits (id : ObjectId) (field : String) (v : Value) :
    IgnoresLimits (setField id field v) := by
  intro m l
  unfold setField
  rw [object_withLimits]
  split <;> rfl

theorem setStatic_ignoresLimits (id : ClassId) (field : String) (v : Value) :
    IgnoresLimits (setStatic id field v) := by
  intro m l
  unfold setStatic
  rw [cls_withLimits]
  split <;> rfl

end Machine

/-! ### Worlds -/

namespace World

variable {σ : Type}

/-- The limits of the machine. -/
def limits (w : World σ) : Limits := w.machine.config.limits

/-- The same world, in which the machine has other limits. -/
def withLimits (w : World σ) (l : Limits) : World σ := { w with machine := w.machine.withLimits l }

@[simp] theorem limits_withLimits (w : World σ) (l : Limits) : (w.withLimits l).limits = l := rfl

@[simp] theorem withLimits_limits (w : World σ) : w.withLimits w.limits = w := rfl

end World

/-- Natives neither read the limits nor change them. -/
def Surroundings.IgnoresLimits {σ : Type} (s : Surroundings σ) : Prop :=
  ∀ name n, s.native? name = some n → ∀ args (w : World σ) l,
    n args (w.withLimits l) = ((n args w).1, (n args w).2.withLimits l)

/-! ### Instructions -/

namespace Outcome

variable {σ : Type} {w : World σ} {l : Limits}

/-- The same outcome under other limits. -/
def withLimits (l : Limits) : Outcome σ → Outcome σ
  | next f w => next f (w.withLimits l)
  | call caller callee w => call caller callee (w.withLimits l)
  | leave v w => leave v (w.withLimits l)
  | fail e w => fail e (w.withLimits l)

theorem withLimits_pop1 {f : Frame} {k k' : Value → Frame → Outcome σ}
    (hk : ∀ v f, k' v f = (k v f).withLimits l) :
    pop1 f (w.withLimits l) k' = (pop1 f w k).withLimits l := by
  unfold pop1
  split
  · exact hk _ _
  · rfl

theorem withLimits_pop2 {f : Frame} {k k' : Value → Value → Frame → Outcome σ}
    (hk : ∀ left right f, k' left right f = (k left right f).withLimits l) :
    pop2 f (w.withLimits l) k' = (pop2 f w k).withLimits l := by
  unfold pop2
  split
  · exact hk _ _ _
  · rfl

theorem withLimits_popArguments {n : Nat} {f : Frame} {k k' : List Value → Frame → Outcome σ}
    (hk : ∀ args f, k' args f = (k args f).withLimits l) :
    popArguments n f (w.withLimits l) k' = (popArguments n f w k).withLimits l := by
  unfold popArguments
  split
  · exact hk _ _
  · rfl

theorem withLimits_withValue {α : Type} {r : Except MachineError α} {k k' : α → Outcome σ}
    (hk : ∀ a, k' a = (k a).withLimits l) :
    withValue r (w.withLimits l) k' = (withValue r w k).withLimits l := by
  cases r with
  | ok a => exact hk a
  | error e => rfl

theorem withLimits_onMachine {α : Type} {operation : Machine → Except MachineError α × Machine}
    {k k' : α → World σ → Outcome σ} (hoperation : Machine.IgnoresLimits operation)
    (hk : ∀ a w, k' a (w.withLimits l) = (k a w).withLimits l) :
    onMachine operation (w.withLimits l) k' = (onMachine operation w k).withLimits l := by
  obtain ⟨machine, host⟩ := w
  simp only [onMachine, World.withLimits, hoperation machine l]
  cases h : operation machine with
  | mk r machine =>
    cases r with
    | ok a => exact hk a ⟨machine, host⟩
    | error e => rfl

theorem withLimits_resolve {s : Surroundings σ} {f : Frame} {name : String}
    {k k' : ClassId → World σ → Outcome σ}
    (hk : ∀ id w, k' id (w.withLimits l) = (k id w).withLimits l) :
    resolve s f name (w.withLimits l) k' = (resolve s f name w k).withLimits l := by
  obtain ⟨machine, host⟩ := w
  simp only [resolve, World.withLimits, Machine.resolve_withLimits]
  cases machine.resolve s.library f.cls name with
  | ok r => exact hk r.1 ⟨r.2, host⟩
  | error e => rfl

theorem withLimits_resolveStatic {s : Surroundings σ} {f : Frame} {field : FieldRef}
    {k k' : ClassId → World σ → Outcome σ}
    (hk : ∀ id w, k' id (w.withLimits l) = (k id w).withLimits l) :
    resolveStatic s f field (w.withLimits l) k' = (resolveStatic s f field w k).withLimits l := by
  refine withLimits_resolve fun id w ↦ ?_
  rw [show (w.withLimits l).machine.staticHolder id field.name =
    w.machine.staticHolder id field.name from rfl]
  split
  · exact hk _ _
  · rfl

end Outcome

namespace Entry

variable {σ : Type} {s : Surroundings σ} {w : World σ} {l : Limits}

/-- The same entry under other limits. -/
def withLimits (l : Limits) : Entry σ → Entry σ
  | frame callee w => frame callee (w.withLimits l)
  | result v w => result v (w.withLimits l)
  | fail e w => fail e (w.withLimits l)

theorem native_withLimits (hs : s.IgnoresLimits) (name : String) (type : MethodTy)
    (args : List Value) (w : World σ) (l : Limits) :
    native s name type args (w.withLimits l) = (native s name type args w).withLimits l := by
  unfold native
  cases hn : s.native? name with
  | none => rfl
  | some n =>
    simp only [hs name n hn args w l]
    cases hend : n args w with
    | mk result w => cases result <;> rfl

theorem method_withLimits (hs : s.IgnoresLimits) (cls : ClassId) (m : MethodDecl)
    (args : List Value) (w : World σ) (l : Limits) :
    method s cls m args (w.withLimits l) = (method s cls m args w).withLimits l := by
  unfold method
  split
  · rfl
  · split
    · exact native_withLimits hs _ _ _ _ _
    · cases m.body <;> rfl

theorem lookup_withLimits (hs : s.IgnoresLimits) (start : ClassId) (name : String)
    (type : MethodTy) (static : Bool) (args : List Value) (w : World σ) (l : Limits) :
    lookup s start name type static args (w.withLimits l) =
      (lookup s start name type static args w).withLimits l := by
  simp only [lookup, show (w.withLimits l).machine.lookupMethod start name type =
    w.machine.lookupMethod start name type from rfl]
  cases w.machine.lookupMethod start name type with
  | none => rfl
  | some found =>
    dsimp only
    split
    · exact method_withLimits hs _ _ _ _ _
    · rfl

theorem toOutcome_withLimits (entry : Entry σ) (caller : Frame) (type : MethodTy) (l : Limits) :
    (entry.withLimits l).toOutcome caller type = (entry.toOutcome caller type).withLimits l := by
  cases entry <;> rfl

end Entry

namespace Frame

variable {σ : Type} {s : Surroundings σ}

/-- No instruction depends on the limits. -/
theorem execute_withLimits (hs : s.IgnoresLimits) (f : Frame) (w : World σ) (l : Limits)
    (i : Instruction) : execute s f (w.withLimits l) i = (execute s f w i).withLimits l := by
  cases i with
  | nop | const | jump | ret => rfl
  | pop | dup | retValue =>
    simp only [execute]
    exact Outcome.withLimits_pop1 fun _ _ ↦ rfl
  | load index =>
    simp only [execute, load]
    split <;> rfl
  | store index =>
    simp only [execute, store]
    refine Outcome.withLimits_pop1 fun _ _ ↦ ?_
    split <;> rfl
  | cmpEq =>
    simp only [execute]
    exact Outcome.withLimits_pop2 fun _ _ _ ↦ rfl
  | arithmetic | cmpLt =>
    simp only [execute]
    refine Outcome.withLimits_pop2 fun _ _ _ ↦ ?_
    exact Outcome.withLimits_withValue fun _ ↦ rfl
  | jumpIf =>
    simp only [execute, jumpIf]
    refine Outcome.withLimits_pop1 fun _ _ ↦ ?_
    exact Outcome.withLimits_withValue fun _ ↦ rfl
  | new className =>
    simp only [execute, new]
    refine Outcome.withLimits_resolve fun id _ ↦ ?_
    exact Outcome.withLimits_onMachine (Machine.allocate_ignoresLimits id) fun _ _ ↦ rfl
  | getField =>
    simp only [execute, getField]
    refine Outcome.withLimits_pop1 fun _ _ ↦ ?_
    refine Outcome.withLimits_withValue fun _ ↦ ?_
    exact Outcome.withLimits_withValue fun _ ↦ rfl
  | putField =>
    simp only [execute, putField]
    refine Outcome.withLimits_pop2 fun _ _ _ ↦ ?_
    refine Outcome.withLimits_withValue fun _ ↦ ?_
    exact Outcome.withLimits_onMachine (Machine.setField_ignoresLimits _ _ _) fun _ _ ↦ rfl
  | getStatic =>
    simp only [execute, getStatic]
    refine Outcome.withLimits_resolveStatic fun _ _ ↦ ?_
    exact Outcome.withLimits_withValue fun _ ↦ rfl
  | putStatic =>
    simp only [execute, putStatic]
    refine Outcome.withLimits_pop1 fun _ _ ↦ ?_
    refine Outcome.withLimits_resolveStatic fun _ _ ↦ ?_
    exact Outcome.withLimits_onMachine (Machine.setStatic_ignoresLimits _ _ _) fun _ _ ↦ rfl
  | invokeVirtual =>
    simp only [execute, invokeVirtual]
    refine Outcome.withLimits_popArguments fun _ _ ↦ ?_
    refine Outcome.withLimits_pop1 fun _ _ ↦ ?_
    refine Outcome.withLimits_withValue fun _ ↦ ?_
    rw [← Entry.toOutcome_withLimits]
    exact congrArg (Entry.toOutcome · _ _) (Entry.lookup_withLimits hs _ _ _ _ _ _ _)
  | invokeStatic =>
    simp only [execute, invokeStatic]
    refine Outcome.withLimits_popArguments fun _ _ ↦ ?_
    refine Outcome.withLimits_resolve fun _ _ ↦ ?_
    rw [← Entry.toOutcome_withLimits]
    exact congrArg (Entry.toOutcome · _ _) (Entry.lookup_withLimits hs _ _ _ _ _ _ _)
  | callNative =>
    simp only [execute, callNative]
    refine Outcome.withLimits_popArguments fun _ _ ↦ ?_
    rw [← Entry.toOutcome_withLimits]
    exact congrArg (Entry.toOutcome · _ _) (Entry.native_withLimits hs _ _ _ _ _)

end Frame

end Hotswap
