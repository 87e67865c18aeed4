import Hotswap.Proofs.Effects
import Hotswap.Proofs.LiveState
import Hotswap.Proofs.VerifiedRuns

/-!
# Live state through invocations

Every frame of an invocation is of a class that is there, since it runs a method that its class
declares. So code makes objects of classes that are there only, and an invocation is a sequence of
operations of the machine, whether the machine verifies or not. All worlds that operations and
invocations lead to are in step.
-/

namespace Hotswap

/-- On machines in which whatever is referred to is there, the natives operate on classes that are
there. -/
def Surroundings.Orderly {σ : Type} (s : Surroundings σ) : Prop :=
  ∀ name n, s.native? name = some n → ∀ args (w : World σ), w.machine.Closed →
    w.machine.Operates (n args w).2.machine

namespace Machine

variable {m m' : Machine}

theorem has_of_mem_methods {id : ClassId} {d : MethodDecl} (h : d ∈ (m.cls id).decl.methods) :
    m.Has id := by
  by_contra hid
  rw [cls_of_not_has hid] at h
  cases h

/-- A name that code resolves means a class that is there. -/
theorem Closed.resolve {lib : Library} {context id : ClassId} {name : String} (hm : m.Closed)
    (hcontext : m.Has context) (h : m.resolve lib context name = .ok (id, m')) :
    m.Operates m' ∧ m'.Has id := by
  unfold Machine.resolve at h
  split at h
  · cases h
    exact ⟨.refl, hcontext⟩
  · exact ⟨.single (.load lib name id h), (hm.load h).2⟩

end Machine

/-! ### Instructions -/

section

variable {σ : Type} {s : Surroundings σ} {w w' : World σ}

/-- An instruction operates on classes that are there if its frame is of one. -/
theorem Frame.Effect.operates {f : Frame} (h : f.Effect s w w') (hs : s.Orderly)
    (hw : w.machine.Closed) (hf : w.machine.Has f.cls) : w.machine.Operates w'.machine := by
  cases h with
  | keep => exact .refl
  | resolve h => exact (hw.resolve hf h).1
  | allocate h =>
    obtain ⟨hoperates, hid⟩ := hw.resolve hf h
    exact hoperates.tail (.allocate hid)
  | setStatic owner field v h => exact (hw.resolve hf h).1.tail (.setStatic _ owner field v)
  | setField object field v => exact .single (.setField _ object field v)
  | native args hn => exact hs _ _ hn args w hw
  | @resolveNative _ _ _ m _ args h hn =>
    have hoperates := (hw.resolve hf h).1
    have hm : m.Closed := hoperates.closed hw
    exact hoperates.trans (hs _ _ hn args { w with machine := m } hm)

theorem Entry.CallsAtMost.operates (h : CallsAtMost s w w') (hs : s.Orderly)
    (hw : w.machine.Closed) : w.machine.Operates w'.machine := by
  rcases h with rfl | ⟨name, n, args, hn, rfl⟩
  · exact .refl
  · exact hs name n hn args w hw

end

/-! ### Invocations -/

/-- Every frame of an invocation is of a class that is there. -/
structure Invocation.Placed {σ : Type} (i : Invocation σ) : Prop where
  closed : i.world.machine.Closed
  current : i.world.machine.Has i.current.cls
  callers : ∀ f ∈ i.callers.frames, i.world.machine.Has f.cls

namespace Invocation

variable {σ : Type} {s : Surroundings σ} {i j : Invocation σ}

/-- A step is a sequence of operations, and leaves every frame in a class that is there. -/
theorem Placed.step (hi : i.Placed) (hs : s.Orderly) (instruction : Instruction) :
    i.world.machine.Operates (i.step s instruction).world.machine ∧
      ∀ j, i.step s instruction = .running j → j.Placed := by
  obtain ⟨f, callers, w⟩ := i
  obtain ⟨hclosed, hcurrent, hcallers⟩ := hi
  have hacts := Frame.acts_execute (s := s) (w := w) { f with pc := f.pc + 1 } instruction
  have hoperates := hacts.effect.operates hs hclosed hcurrent
  have hclosed' := hoperates.closed hclosed
  have hhas := (hoperates.extends hclosed).has
  have hgoesOn := hacts.goesOn
  rw [Invocation.step, world_settle]
  refine ⟨hoperates, fun j hj ↦ ?_⟩
  generalize Frame.execute s { f with pc := f.pc + 1 } w instruction = outcome at *
  cases outcome with
  | next g w' =>
    cases hj
    refine ⟨hclosed', ?_, fun g hg ↦ hhas g.cls (hcallers g hg)⟩
    rw [show g.cls = f.cls from hgoesOn]
    exact hhas f.cls hcurrent
  | call caller callee w' =>
    obtain ⟨hcaller, hcallee⟩ := hgoesOn
    simp only [settle, enter] at hj
    split at hj
    · cases hj
    · cases hj
      -- Only a class that is there declares a method, so the new frame is of one.
      refine ⟨hclosed', Machine.has_of_mem_methods hcallee, fun g hg ↦ ?_⟩
      rcases List.mem_cons.mp hg with rfl | hg
      · rw [hcaller]
        exact hhas f.cls hcurrent
      · exact hhas g.cls (hcallers g hg)
  | leave v w' =>
    simp only [settle, leave] at hj
    split at hj
    · cases hj
    · next caller rest hpop =>
      cases hj
      rw [CallStack.frames_of_pop? hpop] at hcallers
      refine ⟨hclosed', ?_, fun g hg ↦ hhas g.cls (hcallers g (.tail _ hg))⟩
      split <;> exact hhas caller.cls (hcallers caller (.head _))
  | fail e w' => cases hj

/-- An invocation came of another one by operations, and all its frames are of classes that are
there. -/
def LeadsTo (i j : Invocation σ) : Prop := i.world.machine.Operates j.world.machine ∧ j.Placed

/-- One step more comes of operations as well. -/
theorem LeadsTo.running {k : Invocation σ} {instruction : Instruction} (h : i.LeadsTo j)
    (hs : s.Orderly) (hstep : j.step s instruction = .running k) : i.LeadsTo k := by
  obtain ⟨hlast, hplaced⟩ := h.2.step hs instruction
  rw [hstep] at hlast
  exact ⟨h.1.trans hlast, hplaced k hstep⟩

theorem LeadsTo.ended {instruction : Instruction} {result : Except Failure Value} {w : World σ}
    (h : i.LeadsTo j) (hs : s.Orderly) (hstep : j.step s instruction = .ended result w) :
    i.world.machine.Operates w.machine := by
  have hlast := (h.2.step hs instruction).1
  rw [hstep] at hlast
  exact h.1.trans hlast

/-- Steps are a sequence of operations. -/
theorem Placed.steps {n : Nat} (hi : i.Placed) (hs : s.Orderly) (h : Steps s n i j) :
    i.LeadsTo j :=
  h.preserves (fun _ _ _ hj _ hstep ↦ hj.running hs hstep) ⟨.refl, hi⟩

/-- A run is a sequence of operations. -/
theorem Placed.run (hi : i.Placed) (hs : s.Orderly) (budget fuel : Nat) :
    i.world.machine.Operates (i.run s budget fuel).2.machine := by
  apply run_induction (s := s) (P := i.LeadsTo) (Q := fun w ↦ i.world.machine.Operates w.machine)
  · exact fun _ _ _ hj hstep ↦ hj.running hs hstep
  · exact fun _ _ _ _ hj hstep ↦ hj.ended hs hstep
  · exact fun _ hj ↦ hj.1
  · exact ⟨.refl, hi⟩

end Invocation

namespace World

variable {σ : Type} {s : Surroundings σ} {w w' : World σ}

theorem operates_enter (hs : s.Orderly) (hw : w.machine.Closed) (target : Target) (name : String)
    (type : MethodTy) (args : List Value) :
    w.machine.Operates (w.enter s target name type args).world.machine := by
  cases target with
  | static cls => exact (Entry.callsAtMost_lookup _ _ _ _ _).operates hs hw
  | virtual receiver => exact (Entry.callsAtMost_lookup _ _ _ _ _).operates hs hw

/-- The frame that a call from outside begins with is of a class that is there. -/
theorem placed_enter (hw : w.machine.Closed) {target : Target} {name : String} {type : MethodTy}
    {args : List Value} {callee : Frame} (h : w.enter s target name type args = .frame callee w') :
    w' = w ∧ Invocation.Placed ⟨callee, .empty, w'⟩ := by
  have hfound : w' = w ∧ callee.method ∈ (w'.machine.cls callee.cls).decl.methods := by
    cases target with
    | static cls => exact ⟨(Entry.lookupMethod_of_lookup h).1, Entry.declared_of_lookup h⟩
    | virtual receiver => exact ⟨(Entry.lookupMethod_of_lookup h).1, Entry.declared_of_lookup h⟩
  obtain ⟨rfl, hcallee⟩ := hfound
  exact ⟨rfl, hw, Machine.has_of_mem_methods hcallee, nofun⟩

/-- A call from outside is a sequence of operations, so that a native may make one. -/
theorem operates_invoke (hs : s.Orderly) (hw : w.machine.Closed) (target : Target) (name : String)
    (type : MethodTy) (args : List Value) :
    w.machine.Operates (w.invoke s target name type args).2.machine := by
  have henter := operates_enter hs hw target name type args
  rw [invoke_eq_run]
  cases hentry : w.enter s target name type args with
  | result v w' | fail e w' =>
    rw [hentry] at henter
    exact henter
  | frame callee w' =>
    obtain ⟨rfl, hplaced⟩ := placed_enter hw hentry
    apply Entry.run_frame_cases (P := fun r ↦ w'.machine.Operates r.2.machine)
    · exact fun _ ↦ .refl
    · exact fun budget fuel ↦ hplaced.run hs budget fuel

/-- The worlds that arise from new machines, which verify or do not: by operations, by calls from
outside with whatever natives, and in the middle of such calls. -/
inductive Arises : World σ → Prop where
  | new (config : Config) (classpath : Classpath) (host : σ) : Arises ⟨.new config classpath, host⟩
  | operate {w : World σ} {m : Machine} (host : σ) : Arises w → w.machine.Operation m →
    Arises ⟨m, host⟩
  | invoke {w : World σ} {s : Surroundings σ} (target : Target) (name : String) (type : MethodTy)
    (args : List Value) : Arises w → s.Orderly → Arises (w.invoke s target name type args).2
  | midway {w w' : World σ} {s : Surroundings σ} {target : Target} {name : String}
    {type : MethodTy} {args : List Value} {callee : Frame} {n : Nat} {i : Invocation σ} :
    Arises w → s.Orderly → w.enter s target name type args = .frame callee w' →
    Invocation.Steps s n ⟨callee, .empty, w'⟩ i → Arises i.world

theorem Arises.inStep (hw : w.Arises) : w.machine.InStep := by
  induction hw with
  | new config classpath host => exact Machine.inStep_new config classpath
  | operate host _ hoperation ih => exact hoperation.inStep ih
  | invoke target name type args _ hs ih =>
    exact (operates_invoke hs ih.closed target name type args).inStep ih
  | midway _ hs hentry hsteps ih =>
    obtain ⟨rfl, hplaced⟩ := placed_enter ih.closed hentry
    exact (hplaced.steps hs hsteps).1.inStep ih

/-- Live state never gets out of step with the definitions. In every world that arises, an object
has exactly the fields that the definitions of its class and of the ancestors now declare, a class
has exactly the static values that its definition now declares, and no redefinition that succeeds
changes the class of the chain with which a method is found, or that none is. -/
theorem Arises.live_state (hw : w.Arises) :
    (∀ o ∈ w.machine.objects, ∀ field,
        field ∈ o.fields.keys ↔ field ∈ (w.machine.instanceFields o.cls).map (·.name)) ∧
      (∀ id field, field ∈ (w.machine.cls id).statics.keys ↔
        field ∈ (w.machine.cls id).decl.staticFields.map (·.name)) ∧
      ∀ batch ids m', w.machine.redefine batch = .ok (ids, m') → ∀ id name type,
        (m'.lookupMethod id name type).map Prod.fst =
          (w.machine.lookupMethod id name type).map Prod.fst := by
  have hstep := hw.inStep
  refine ⟨hstep.fields, fun id ↦ (hstep.classes id).statics, ?_⟩
  intro batch ids m' h id name type
  exact hstep.lookupMethod_redefine h id name type

/-- The image of a class with a field, a static field and a method that returns a number. -/
def baseImage : List UInt8 :=
  [84, 80, 67, 76, 1, 0, 1, 0, 3, 107, 46, 65, 0, 2, 0, 0, 1, 120, 1, 73, 8, 0, 1, 115, 1, 73, 1, 1,
    0, 1, 110, 3, 40, 41, 73, 1, 1, 1, 2, 17, 1, 0, 0, 0, 113]

/-- The image of the same class with the fields in another order and another number. -/
def otherBaseImage : List UInt8 :=
  [84, 80, 67, 76, 1, 0, 1, 0, 3, 107, 46, 65, 0, 2, 8, 0, 1, 115, 1, 73, 0, 0, 1, 120, 1, 73, 1, 1,
    0, 1, 110, 3, 40, 41, 73, 1, 1, 1, 2, 17, 2, 0, 0, 0, 113]

/-- The image of a class that extends it by a field. -/
def derivedImage : List UInt8 :=
  [84, 80, 67, 76, 1, 0, 1, 0, 3, 107, 46, 66, 1, 3, 107, 46, 65, 1, 0, 0, 1, 121, 1, 73, 0]

/-- Both classes. -/
def derivedLibrary : Library := ⟨#[.memory (.ofList [("k.A", baseImage), ("k.B", derivedImage)])]⟩

/-- A world with an object of the derived class. -/
def derivedWorld : World Unit :=
  match (Machine.new .standard [0]).load derivedLibrary "k.B" with
  | .ok (id, machine) => ⟨(Machine.allocate id machine).2, ()⟩
  | .error _ => ⟨.new .standard [0], ()⟩

theorem arises_derivedWorld : derivedWorld.Arises := by
  have hnew : Arises ⟨.new .standard [0], ()⟩ := .new .standard [0] ()
  unfold derivedWorld
  split
  · next id machine h =>
    have hid := ((Machine.closed_new .standard [0]).load h).2
    exact (hnew.operate () (.load _ _ id h)).operate () (.allocate hid)
  · exact hnew

/-- The object of the derived class, with a field of each class. -/
def derivedObject : Instance := ⟨⟨1⟩, .ofList [("x", .int 0), ("y", .int 0)]⟩

/-- After the base class was redefined, the object of the derived class still has the fields of both
classes, and the method is still found with the base class. -/
theorem derivedWorld_live_state :
    derivedWorld.Arises ∧ ∃ m', derivedWorld.machine.redefine [⟨⟨0⟩, otherBaseImage⟩] =
        .ok ([⟨0⟩], m') ∧
      (m'.lookupMethod ⟨1⟩ "n" ⟨[], .prim .int⟩).map Prod.fst = some ⟨0⟩ ∧
      (⟨m', ()⟩ : World Unit).Arises ∧ derivedObject ∈ m'.objects ∧
        ∀ field, field ∈ derivedObject.fields.keys ↔
          field ∈ (m'.instanceFields ⟨1⟩).map (·.name) := by
  have hw := arises_derivedWorld
  have htaken : (derivedWorld.machine.redefine [⟨⟨0⟩, otherBaseImage⟩]).isOk = true := by cbv
  cases h : derivedWorld.machine.redefine [⟨⟨0⟩, otherBaseImage⟩] with
  | error e =>
    rw [h] at htaken
    cases htaken
  | ok result =>
    obtain ⟨ids, m'⟩ := result
    obtain ⟨rfl, changes, -, -, hm'⟩ := Machine.redefine_eq_ok.mp h
    have hw' : (⟨m', ()⟩ : World Unit).Arises := hw.operate () (.redefine _ _ h)
    have hfound : (derivedWorld.machine.lookupMethod ⟨1⟩ "n" ⟨[], .prim .int⟩).map Prod.fst =
        some ⟨0⟩ := by cbv
    have hobject : derivedObject ∈ m'.objects := by
      rw [hm', Machine.swapAll_eq]
      exact Array.mem_of_getElem? (by cbv : derivedWorld.machine.objects[0]? = some derivedObject)
    refine ⟨hw, m', rfl, ?_, hw', hobject, hw'.live_state.1 derivedObject hobject⟩
    rw [← hfound]
    exact hw.live_state.2.2 _ _ _ h _ _ _

end World

end Hotswap
