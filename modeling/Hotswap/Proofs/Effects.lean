import Hotswap.Proofs.Evolution
import Hotswap.Proofs.Outcomes

/-!
# What an instruction does to the world

All that one instruction can do to the machine: it resolves a class, stores into a field, makes an
object, or calls a native, which does what it does. The frame stays one of its class, and a frame
that is entered runs a method that its class declares. What holds of every one of these holds of
every instruction.
-/

namespace Hotswap

/-- The worlds that an instruction in a frame can leave behind. -/
inductive Frame.Effect {σ : Type} (s : Surroundings σ) (f : Frame) (w : World σ) :
    World σ → Prop where
  | keep : Effect s f w w
  | resolve {name : String} {id : ClassId} {m : Machine} :
    w.machine.resolve s.library f.cls name = .ok (id, m) → Effect s f w { w with machine := m }
  | allocate {name : String} {id : ClassId} {m : Machine} :
    w.machine.resolve s.library f.cls name = .ok (id, m) →
    Effect s f w { w with machine := (Machine.allocate id m).2 }
  | setStatic {name : String} {id : ClassId} {m : Machine} (owner : ClassId) (field : String)
    (v : Value) : w.machine.resolve s.library f.cls name = .ok (id, m) →
    Effect s f w { w with machine := (Machine.setStatic owner field v m).2 }
  | setField (object : ObjectId) (field : String) (v : Value) :
    Effect s f w { w with machine := (Machine.setField object field v w.machine).2 }
  | native {name : String} {n : Native σ} (args : List Value) :
    s.native? name = some n → Effect s f w (n args w).2
  | resolveNative {className name : String} {id : ClassId} {m : Machine} {n : Native σ}
    (args : List Value) : w.machine.resolve s.library f.cls className = .ok (id, m) →
    s.native? name = some n → Effect s f w (n args { w with machine := m }).2

/-- A frame that goes on or waits is one of some class, and a frame that is entered runs a method
that its class declares. -/
def Outcome.GoesOnIn {σ : Type} (cls : ClassId) : Outcome σ → Prop
  | next g _ => g.cls = cls
  | call caller callee w =>
    caller.cls = cls ∧ callee.method ∈ (w.machine.cls callee.cls).decl.methods
  | leave _ _ => True
  | fail _ _ => True

/-- All that an instruction in a frame can do. -/
structure Frame.Acts {σ : Type} (s : Surroundings σ) (f : Frame) (w : World σ) (o : Outcome σ) :
    Prop where
  effect : f.Effect s w o.world
  goesOn : o.GoesOnIn f.cls

namespace Entry

variable {σ : Type} {s : Surroundings σ} {w : World σ}

/-- The world behind an entry. -/
def world : Entry σ → World σ
  | frame _ w => w
  | result _ w => w
  | fail _ w => w

@[simp] theorem world_toOutcome (entry : Entry σ) (caller : Frame) (type : MethodTy) :
    (entry.toOutcome caller type).world = entry.world := by
  cases entry <;> rfl

/-- Entering a method leaves the world alone or calls a native. -/
def CallsAtMost (s : Surroundings σ) (w w' : World σ) : Prop :=
  w' = w ∨ ∃ name n args, s.native? name = some n ∧ w' = (n args w).2

theorem callsAtMost_native (name : String) (type : MethodTy) (args : List Value) :
    CallsAtMost s w (native s name type args w).world := by
  unfold native
  split
  · exact .inl rfl
  · next n hn =>
    right
    refine ⟨name, n, args, hn, ?_⟩
    split <;> next heq => rw [heq]; rfl

theorem callsAtMost_method (cls : ClassId) (m : MethodDecl) (args : List Value) :
    CallsAtMost s w (method s cls m args w).world := by
  unfold method
  split
  · exact .inl rfl
  · split
    · exact callsAtMost_native _ _ _
    · split <;> exact .inl rfl

theorem callsAtMost_lookup (start : ClassId) (name : String) (type : MethodTy) (static : Bool)
    (args : List Value) : CallsAtMost s w (lookup s start name type static args w).world := by
  unfold lookup
  split
  · exact .inl rfl
  · dsimp only
    split
    · exact callsAtMost_method _ _ _
    · exact .inl rfl

/-- A native has no frame. -/
theorem native_ne_frame (name : String) (type : MethodTy) (args : List Value) (callee : Frame)
    (w' : World σ) : native s name type args w ≠ .frame callee w' := by
  intro h
  unfold native at h
  split at h
  · cases h
  · split at h <;> cases h

/-- A frame that is entered runs the method that was found, in the class that declares it, and the
world is as it was. -/
theorem lookupMethod_of_lookup {start : ClassId} {name : String} {type : MethodTy} {static : Bool}
    {args : List Value} {callee : Frame} {w' : World σ}
    (h : lookup s start name type static args w = .frame callee w') :
    w' = w ∧ w.machine.lookupMethod start name type = some (callee.cls, callee.method) := by
  unfold lookup at h
  split at h
  · cases h
  · next owner d hd =>
    dsimp only at h
    split at h
    · unfold method at h
      split at h
      · cases h
      · split at h
        · exact absurd h (native_ne_frame _ _ _ _ _)
        · split at h
          · cases h
          · cases h
            exact ⟨rfl, hd⟩
    · cases h

/-- The method of a frame that is entered is declared by the class of the frame. -/
theorem declared_of_lookup {start : ClassId} {name : String} {type : MethodTy} {static : Bool}
    {args : List Value} {callee : Frame} {w' : World σ}
    (h : lookup s start name type static args w = .frame callee w') :
    callee.method ∈ (w'.machine.cls callee.cls).decl.methods := by
  obtain ⟨rfl, hfound⟩ := lookupMethod_of_lookup h
  exact (Machine.mem_of_lookupMethod hfound).1

end Entry

namespace Frame

variable {σ : Type} {s : Surroundings σ} {w : World σ}

/-- Entering a method from code has an effect that instructions can have. -/
theorem Effect.of_callsAtMost {f : Frame} {w' : World σ} (h : Entry.CallsAtMost s w w') :
    f.Effect s w w' := by
  rcases h with rfl | ⟨name, n, args, hn, rfl⟩
  · exact .keep
  · exact .native args hn

/-- A failure leaves no frame behind. -/
theorem Effect.acts_error {f : Frame} {w' : World σ} (h : f.Effect s w w') (e : MachineError) :
    f.Acts s w (.machineError e w') := ⟨h, trivial⟩

/-- What an entry comes to in a frame that calls from its own class. -/
theorem Effect.acts_toOutcome {f caller : Frame} {entry : Entry σ} (h : f.Effect s w entry.world)
    (hcls : caller.cls = f.cls)
    (hframe : ∀ callee w', entry = .frame callee w' →
      callee.method ∈ (w'.machine.cls callee.cls).decl.methods) (type : MethodTy) :
    f.Acts s w (entry.toOutcome caller type) := by
  rw [← Entry.world_toOutcome entry caller type] at h
  refine ⟨h, ?_⟩
  cases entry with
  | frame callee w' => exact ⟨hcls, hframe callee w' rfl⟩
  | result =>
    simp only [Entry.toOutcome]
    split <;> exact hcls
  | fail => trivial

theorem acts_new (f : Frame) (className : String) : f.Acts s w (new s f className w) := by
  apply Outcome.resolve_cases
  · exact fun _ _ ↦ ⟨.keep, trivial⟩
  · intro id m h
    have hallocate : f.Effect s w { w with machine := (Machine.allocate id m).2 } := .allocate h
    apply Outcome.onMachine_cases
    · intro e m' he
      rw [he] at hallocate
      exact hallocate.acts_error e
    · intro object m' hobject
      rw [hobject] at hallocate
      exact ⟨hallocate, rfl⟩

theorem acts_getField (f : Frame) (field : FieldRef) : f.Acts s w (f.getField field w) := by
  apply Outcome.pop1_cases
  · exact fun _ ↦ ⟨.keep, trivial⟩
  · intro _ _ _
    apply Outcome.withValue_cases
    · exact fun _ _ ↦ ⟨.keep, trivial⟩
    · intro _ _
      apply Outcome.withValue_cases
      · exact fun _ _ ↦ ⟨.keep, trivial⟩
      · exact fun _ _ ↦ ⟨.keep, rfl⟩

theorem acts_putField (f : Frame) (field : FieldRef) : f.Acts s w (f.putField field w) := by
  apply Outcome.pop2_cases
  · exact fun _ ↦ ⟨.keep, trivial⟩
  · intro object v _ _
    apply Outcome.withValue_cases
    · exact fun _ _ ↦ ⟨.keep, trivial⟩
    · intro o _
      have hset : f.Effect s w
          { w with machine := (Machine.setField o field.name v w.machine).2 } := .setField _ _ _
      apply Outcome.onMachine_cases
      · intro e m he
        rw [he] at hset
        exact hset.acts_error e
      · intro _ m hm
        rw [hm] at hset
        exact ⟨hset, rfl⟩

theorem acts_getStatic (f : Frame) (field : FieldRef) : f.Acts s w (getStatic s f field w) := by
  apply Outcome.resolveStatic_cases
  · exact fun _ _ ↦ ⟨.keep, trivial⟩
  · exact fun _ _ h ↦ ⟨.resolve h, trivial⟩
  · intro _ m owner h
    apply Outcome.withValue_cases
    · exact fun _ _ ↦ ⟨.resolve h, trivial⟩
    · exact fun _ _ ↦ ⟨.resolve h, rfl⟩

theorem acts_putStatic (f : Frame) (field : FieldRef) : f.Acts s w (putStatic s f field w) := by
  apply Outcome.pop1_cases
  · exact fun _ ↦ ⟨.keep, trivial⟩
  · intro v _ _
    apply Outcome.resolveStatic_cases
    · exact fun _ _ ↦ ⟨.keep, trivial⟩
    · exact fun _ _ h ↦ ⟨.resolve h, trivial⟩
    · intro _ m owner h
      have hset : f.Effect s w
          { w with machine := (Machine.setStatic owner field.name v m).2 } := .setStatic _ _ _ h
      apply Outcome.onMachine_cases
      · intro e m' he
        rw [he] at hset
        exact hset.acts_error e
      · intro _ m' hm'
        rw [hm'] at hset
        exact ⟨hset, rfl⟩

theorem acts_invokeVirtual (f : Frame) (m : MethodRef) : f.Acts s w (invokeVirtual s f m w) := by
  apply Outcome.popArguments_cases
  · exact fun _ ↦ ⟨.keep, trivial⟩
  · intro _
    apply Outcome.pop1_cases
    · exact fun _ ↦ ⟨.keep, trivial⟩
    · intro v _ _
      apply Outcome.withValue_cases
      · exact fun _ _ ↦ ⟨.keep, trivial⟩
      · intro receiver _
        apply Effect.acts_toOutcome
        · exact .of_callsAtMost (Entry.callsAtMost_lookup _ _ _ _ _)
        · rfl
        · exact fun _ _ ↦ Entry.declared_of_lookup

theorem acts_invokeStatic (f : Frame) (m : MethodRef) : f.Acts s w (invokeStatic s f m w) := by
  apply Outcome.popArguments_cases
  · exact fun _ ↦ ⟨.keep, trivial⟩
  · intro _
    apply Outcome.resolve_cases
    · exact fun _ _ ↦ ⟨.keep, trivial⟩
    · intro id m' h
      apply Effect.acts_toOutcome
      · rcases Entry.callsAtMost_lookup (s := s) (w := { w with machine := m' }) id m.name m.type
          true (f.stack.take m.type.params.length).reverse with hkeep | ⟨name, n, args, hn, hcall⟩
        · rw [Entry.static, hkeep]
          exact .resolve h
        · rw [Entry.static, hcall]
          exact .resolveNative args h hn
      · rfl
      · exact fun _ _ ↦ Entry.declared_of_lookup

theorem acts_callNative (f : Frame) (n : NativeRef) : f.Acts s w (callNative s f n w) := by
  apply Outcome.popArguments_cases
  · exact fun _ ↦ ⟨.keep, trivial⟩
  · intro _
    apply Effect.acts_toOutcome
    · exact .of_callsAtMost (Entry.callsAtMost_native _ _ _)
    · rfl
    · exact fun _ _ h ↦ absurd h (Entry.native_ne_frame _ _ _ _ _)

/-- Every instruction does one of these things. -/
theorem acts_execute (f : Frame) (i : Instruction) : f.Acts s w (execute s f w i) := by
  cases i with
  | nop | const | jump => exact ⟨.keep, rfl⟩
  | ret => exact ⟨.keep, trivial⟩
  | pop | dup =>
    rw [execute]
    exact Outcome.pop1_cases (fun _ ↦ ⟨.keep, trivial⟩) fun _ _ _ ↦ ⟨.keep, rfl⟩
  | retValue =>
    rw [execute]
    exact Outcome.pop1_cases (fun _ ↦ ⟨.keep, trivial⟩) fun _ _ _ ↦ ⟨.keep, trivial⟩
  | load index =>
    simp only [execute, load]
    split
    · exact ⟨.keep, rfl⟩
    · exact ⟨.keep, trivial⟩
  | store index =>
    rw [execute, store]
    apply Outcome.pop1_cases
    · exact fun _ ↦ ⟨.keep, trivial⟩
    · intro _ _ _
      split
      · exact ⟨.keep, rfl⟩
      · exact ⟨.keep, trivial⟩
  | cmpEq =>
    rw [execute]
    exact Outcome.pop2_cases (fun _ ↦ ⟨.keep, trivial⟩) fun _ _ _ _ ↦ ⟨.keep, rfl⟩
  | arithmetic | cmpLt =>
    rw [execute]
    apply Outcome.pop2_cases
    · exact fun _ ↦ ⟨.keep, trivial⟩
    · intro _ _ _ _
      exact Outcome.withValue_cases (fun _ _ ↦ ⟨.keep, trivial⟩) fun _ _ ↦ ⟨.keep, rfl⟩
  | jumpIf =>
    rw [execute, jumpIf]
    apply Outcome.pop1_cases
    · exact fun _ ↦ ⟨.keep, trivial⟩
    · intro _ _ _
      apply Outcome.withValue_cases
      · exact fun _ _ ↦ ⟨.keep, trivial⟩
      · intro zero _
        split
        · exact ⟨.keep, rfl⟩
        · exact ⟨.keep, rfl⟩
  | new className => exact acts_new f className
  | getField field => exact acts_getField f field
  | putField field => exact acts_putField f field
  | getStatic field => exact acts_getStatic f field
  | putStatic field => exact acts_putStatic f field
  | invokeVirtual m => exact acts_invokeVirtual f m
  | invokeStatic m => exact acts_invokeStatic f m
  | callNative n => exact acts_callNative f n

end Frame

end Hotswap
