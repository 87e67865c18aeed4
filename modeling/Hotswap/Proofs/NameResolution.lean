import Hotswap.Proofs.Namespaces

/-!
# Names in code

What a name means in the code of a class: in the code of a class that was defined its own name means
the class itself, and every other name means a class of the system namespace. The code that a frame
runs is code of the class of the frame, whatever object it runs on, and every instruction that names
a class uses the one that the name means there. This is so at every moment of every run.
-/

namespace Hotswap

/-! ### What names mean -/

namespace Machine

variable {m m' : Machine} {lib : Library} {context id : ClassId} {name : String}

/-- What a name means in the code of a class. -/
def Means (m : Machine) (context : ClassId) (name : String) (id : ClassId) : Prop :=
  if context ∈ m.defined ∧ m.className context = name then id = context
  else m.findLoaded name = some id

/-- A name means one class at most. -/
theorem Means.eq {id' : ClassId} (h : m.Means context name id) (h' : m.Means context name id') :
    id = id' := by
  unfold Means at h h'
  split at h
  · next hown =>
    rw [if_pos hown] at h'
    exact h.trans h'.symm
  · next hown =>
    rw [if_neg hown] at h'
    exact Option.some.inj (h.symm.trans h')

/-- Unless it means the class itself that was defined, a name means the class of the system
namespace that goes by it. -/
theorem Isolated.system_of_means (hm : m.Isolated) (h : m.Means context name id)
    (hother : context ∉ m.defined ∨ m.className context ≠ name) :
    m.Has id ∧ (m.cls id).isSystem = true ∧ m.className id = name := by
  have hown : ¬ (context ∈ m.defined ∧ m.className context = name) := by
    rintro ⟨hdefined, hname⟩
    rcases hother with hother | hother
    · exact hother hdefined
    · exact hother hname
  rw [Means, if_neg hown] at h
  exact (hm.system name id).mp h

/-- A name that is resolved in the code of a class means the class that is found. -/
theorem Isolated.resolve (hm : m.Isolated) (hcontext : m.Has context)
    (h : m.resolve lib context name = .ok (id, m')) :
    m'.Isolated ∧ m.Retains m' ∧ m'.Means context name id := by
  unfold Machine.resolve at h
  split at h
  · next hown =>
    cases h
    refine ⟨hm, .refl m, ?_⟩
    unfold Means
    split
    · rfl
    · next hnot =>
      -- The class is of the system namespace, where it is found under its own name.
      have hdefined : context ∉ m.defined := fun hdefined ↦ hnot ⟨hdefined, hown⟩
      rw [hm.defined, not_and, Bool.not_eq_false] at hdefined
      exact (hm.system name context).mpr ⟨hcontext, hdefined hcontext, hown⟩
  · next hother =>
    have hloaded := hm.load h
    refine ⟨hloaded.isolated, hloaded.retains, ?_⟩
    rw [Means, if_neg]
    · exact hloaded.found
    · rintro ⟨-, hname⟩
      exact hother ((hloaded.retains.name context hcontext).symm.trans hname)

end Machine

/-! ### Instructions -/

/-- The class that an instruction names for the machine to find. A field of an object and a method
of an object are found with the class of the object. -/
def Instruction.className? : Instruction → Option String
  | new className => some className
  | getStatic field => some field.owner
  | putStatic field => some field.owner
  | invokeStatic m => some m.owner
  | _ => none

/-- The frame goes on or waits in the same call, and a frame that is entered begins a method that
its class declares. -/
def Outcome.Continues {σ : Type} (f : Frame) : Outcome σ → Prop
  | next g _ => f.SameCall g
  | call caller callee w => f.SameCall caller ∧ ∃ b, callee.Begins w.machine b
  | leave _ _ => True
  | fail _ _ => True

namespace Entry

variable {σ : Type} {s : Surroundings σ} {w w' : World σ}

/-- A frame that is entered begins its method. -/
theorem begins_of_lookup {start : ClassId} {name : String} {type : MethodTy} {static : Bool}
    {args : List Value} {callee : Frame}
    (h : lookup s start name type static args w = .frame callee w') :
    ∃ b, callee.Begins w'.machine b := by
  have hdeclared := declared_of_lookup h
  unfold lookup at h
  split at h
  · cases h
  · dsimp only at h
    split at h
    · unfold method at h
      split at h
      · cases h
      · split at h
        · exact absurd h (native_ne_frame _ _ _ _ _)
        · split at h
          · cases h
          · next b hb =>
            cases h
            refine ⟨b, hdeclared, hb, rfl, rfl, rfl, ?_⟩
            simp
            omega
    · cases h

/-- A method that gives a result without a frame is one that a native stands for, which ran. -/
theorem native_of_lookup {start : ClassId} {name : String} {type : MethodTy} {static : Bool}
    {args : List Value} {v : Value} (h : lookup s start name type static args w = .result v w') :
    ∃ owner d n u, w.machine.lookupMethod start name type = some (owner, d) ∧ d.isNative = true ∧
      s.native? (w.machine.className owner ++ "." ++ d.name) = some n ∧
      n args w = (.value u, w') := by
  unfold lookup at h
  split at h
  · cases h
  · next owner d hd =>
    dsimp only at h
    split at h
    · unfold method at h
      split at h
      · cases h
      · split at h
        · next hnative =>
          unfold native at h
          split at h
          · cases h
          · next n hn =>
            split at h <;> cases h
            next u hu => exact ⟨owner, d, n, u, hd, hnative, hn, hu⟩
        · split at h <;> cases h
    · cases h

theorem continues_toOutcome {entry : Entry σ} {f : Frame} {stack : List Value}
    (h : ∀ callee w', entry = .frame callee w' → ∃ b, callee.Begins w'.machine b)
    (type : MethodTy) : (entry.toOutcome { f with stack } type).Continues f := by
  cases entry with
  | frame callee w' => exact ⟨⟨rfl, rfl, rfl, rfl⟩, h callee w' rfl⟩
  | result v w' =>
    simp only [toOutcome]
    split <;> exact ⟨rfl, rfl, rfl, rfl⟩
  | fail => trivial

end Entry

namespace Frame

variable {σ : Type} {s : Surroundings σ} {w : World σ}

theorem sameCall_stack (f : Frame) (stack : List Value) : f.SameCall { f with stack } :=
  ⟨rfl, rfl, rfl, rfl⟩

/-- No instruction changes the code that its frame runs. -/
theorem continues_execute (f : Frame) (i : Instruction) : (execute s f w i).Continues f := by
  cases i with
  | nop | const | jump => exact ⟨rfl, rfl, rfl, rfl⟩
  | ret => trivial
  | pop | dup =>
    rw [execute]
    exact Outcome.pop1_cases (fun _ ↦ trivial) fun _ _ _ ↦ f.sameCall_stack _
  | retValue =>
    rw [execute]
    exact Outcome.pop1_cases (fun _ ↦ trivial) fun _ _ _ ↦ trivial
  | load index =>
    simp only [execute, load]
    split
    · exact f.sameCall_stack _
    · trivial
  | store index =>
    rw [execute, store]
    refine Outcome.pop1_cases (fun _ ↦ trivial) fun _ _ _ ↦ ?_
    split
    · exact ⟨rfl, rfl, rfl, Array.size_setIfInBounds⟩
    · trivial
  | cmpEq =>
    rw [execute]
    exact Outcome.pop2_cases (fun _ ↦ trivial) fun _ _ _ _ ↦ f.sameCall_stack _
  | arithmetic | cmpLt =>
    rw [execute]
    refine Outcome.pop2_cases (fun _ ↦ trivial) fun _ _ _ _ ↦ ?_
    exact Outcome.withValue_cases (fun _ _ ↦ trivial) fun _ _ ↦ f.sameCall_stack _
  | jumpIf =>
    rw [execute, jumpIf]
    refine Outcome.pop1_cases (fun _ ↦ trivial) fun _ _ _ ↦ ?_
    refine Outcome.withValue_cases (fun _ _ ↦ trivial) fun _ _ ↦ ?_
    split <;> exact ⟨rfl, rfl, rfl, rfl⟩
  | new className =>
    rw [execute, new]
    refine Outcome.resolve_cases (fun _ _ ↦ trivial) fun _ _ _ ↦ ?_
    exact Outcome.onMachine_cases (fun _ _ _ ↦ trivial) fun _ _ _ ↦ f.sameCall_stack _
  | getField =>
    rw [execute, getField]
    refine Outcome.pop1_cases (fun _ ↦ trivial) fun _ _ _ ↦ ?_
    refine Outcome.withValue_cases (fun _ _ ↦ trivial) fun _ _ ↦ ?_
    exact Outcome.withValue_cases (fun _ _ ↦ trivial) fun _ _ ↦ f.sameCall_stack _
  | putField =>
    rw [execute, putField]
    refine Outcome.pop2_cases (fun _ ↦ trivial) fun _ _ _ _ ↦ ?_
    refine Outcome.withValue_cases (fun _ _ ↦ trivial) fun _ _ ↦ ?_
    exact Outcome.onMachine_cases (fun _ _ _ ↦ trivial) fun _ _ _ ↦ f.sameCall_stack _
  | getStatic =>
    rw [execute, getStatic]
    refine Outcome.resolveStatic_cases (fun _ _ ↦ trivial) (fun _ _ _ ↦ trivial) fun _ _ _ _ ↦ ?_
    exact Outcome.withValue_cases (fun _ _ ↦ trivial) fun _ _ ↦ f.sameCall_stack _
  | putStatic =>
    rw [execute, putStatic]
    refine Outcome.pop1_cases (fun _ ↦ trivial) fun _ _ _ ↦ ?_
    refine Outcome.resolveStatic_cases (fun _ _ ↦ trivial) (fun _ _ _ ↦ trivial) fun _ _ _ _ ↦ ?_
    exact Outcome.onMachine_cases (fun _ _ _ ↦ trivial) fun _ _ _ ↦ f.sameCall_stack _
  | invokeVirtual =>
    rw [execute, invokeVirtual]
    refine Outcome.popArguments_cases (fun _ ↦ trivial) fun _ ↦ ?_
    refine Outcome.pop1_cases (fun _ ↦ trivial) fun _ _ _ ↦ ?_
    refine Outcome.withValue_cases (fun _ _ ↦ trivial) fun _ _ ↦ ?_
    exact Entry.continues_toOutcome (fun _ _ ↦ Entry.begins_of_lookup) _
  | invokeStatic =>
    rw [execute, invokeStatic]
    refine Outcome.popArguments_cases (fun _ ↦ trivial) fun _ ↦ ?_
    refine Outcome.resolve_cases (fun _ _ ↦ trivial) fun _ _ _ ↦ ?_
    exact Entry.continues_toOutcome (fun _ _ ↦ Entry.begins_of_lookup) _
  | callNative =>
    rw [execute, callNative]
    refine Outcome.popArguments_cases (fun _ ↦ trivial) fun _ ↦ ?_
    exact Entry.continues_toOutcome (fun _ _ h ↦ absurd h (Entry.native_ne_frame _ _ _ _ _)) _

/-- What an instruction does with the class that it names, in a machine in which that class was
found: it makes an object of the class; it reads or stores into a static field that the class
declares or inherits; it enters a method that the class declares or inherits; or it runs the native
that such a method stands for. -/
inductive Uses (s : Surroundings σ) (f : Frame) (host : σ) (id : ClassId) (m : Machine) :
    Instruction → Outcome σ → Prop where
  | new {className : String} {object : ObjectId} {m' : Machine} :
    Machine.allocate id m = (.ok object, m') →
    Uses s f host id m (.new className) (.next (f.push (.ref object)) ⟨m', host⟩)
  | getStatic {field : FieldRef} {v : Value} : m.getStatic id field.name = .ok v →
    Uses s f host id m (.getStatic field) (.next (f.push v) ⟨m, host⟩)
  | putStatic {field : FieldRef} {owner : ClassId} {v : Value} {stack : List Value}
    {m' : Machine} : f.stack = v :: stack → m.staticHolder id field.name = some owner →
    Machine.setStatic owner field.name v m = (.ok (), m') →
    Uses s f host id m (.putStatic field) (.next { f with stack } ⟨m', host⟩)
  | enter {ref : MethodRef} {caller callee : Frame} :
    m.lookupMethod id ref.name ref.type = some (callee.cls, callee.method) →
    Uses s f host id m (.invokeStatic ref) (.call caller callee ⟨m, host⟩)
  | native {ref : MethodRef} {owner : ClassId} {d : MethodDecl} {n : Native σ}
    {args : List Value} {v : Value} {g : Frame} {w : World σ} :
    m.lookupMethod id ref.name ref.type = some (owner, d) → d.isNative = true →
    s.native? (m.className owner ++ "." ++ d.name) = some n → n args ⟨m, host⟩ = (.value v, w) →
    Uses s f host id m (.invokeStatic ref) (.next g w)

/-- An instruction fails, or a name that it resolved stands for the class that it uses. -/
def UsesName (s : Surroundings σ) (f : Frame) (w : World σ) (name : String) (i : Instruction)
    (o : Outcome σ) : Prop :=
  (∃ e w', o = .fail e w') ∨
    ∃ id m, w.machine.resolve s.library f.cls name = .ok (id, m) ∧ f.Uses s w.host id m i o

theorem usesName_new (f : Frame) (className : String) :
    f.UsesName s w className (.new className) (new s f className w) := by
  refine Outcome.resolve_cases (fun e _ ↦ .inl ⟨_, _, rfl⟩) fun id m h ↦ ?_
  refine Outcome.onMachine_cases (fun e m' _ ↦ .inl ⟨_, _, rfl⟩) fun object m' hobject ↦ ?_
  exact .inr ⟨id, m, h, .new hobject⟩

theorem usesName_getStatic (f : Frame) (field : FieldRef) :
    f.UsesName s w field.owner (.getStatic field) (getStatic s f field w) := by
  rw [getStatic, Outcome.resolveStatic]
  refine Outcome.resolve_cases (fun e _ ↦ .inl ⟨_, _, rfl⟩) fun id m h ↦ ?_
  cases hholder : m.staticHolder id field.name with
  | none =>
    exact .inl ⟨_, _, rfl⟩
  | some owner =>
    refine Outcome.withValue_cases (fun e _ ↦ .inl ⟨_, _, rfl⟩) fun v hv ↦ ?_
    refine .inr ⟨id, m, h, .getStatic ?_⟩
    rw [Machine.getStatic, hholder]
    exact hv

theorem usesName_putStatic (f : Frame) (field : FieldRef) :
    f.UsesName s w field.owner (.putStatic field) (putStatic s f field w) := by
  rw [putStatic]
  refine Outcome.pop1_cases (fun _ ↦ .inl ⟨_, _, rfl⟩) fun v stack hstack ↦ ?_
  rw [Outcome.resolveStatic]
  refine Outcome.resolve_cases (fun e _ ↦ .inl ⟨_, _, rfl⟩) fun id m h ↦ ?_
  cases hholder : m.staticHolder id field.name with
  | none =>
    exact .inl ⟨_, _, rfl⟩
  | some owner =>
    refine Outcome.onMachine_cases (fun e m' _ ↦ .inl ⟨_, _, rfl⟩) fun _ m' hset ↦ ?_
    exact .inr ⟨id, m, h, .putStatic hstack hholder hset⟩

theorem usesName_invokeStatic (f : Frame) (ref : MethodRef) :
    f.UsesName s w ref.owner (.invokeStatic ref) (invokeStatic s f ref w) := by
  refine Outcome.popArguments_cases (fun _ ↦ .inl ⟨_, _, rfl⟩) fun _ ↦ ?_
  refine Outcome.resolve_cases (fun e _ ↦ .inl ⟨_, _, rfl⟩) fun id m h ↦ ?_
  generalize hentry : Entry.static s id ref.name ref.type
    (f.stack.take ref.type.params.length).reverse { w with machine := m } = entry
  cases entry with
  | frame callee w' =>
    obtain ⟨rfl, hfound⟩ := Entry.lookupMethod_of_lookup hentry
    exact .inr ⟨id, m, h, .enter hfound⟩
  | result v w' =>
    obtain ⟨owner, d, n, u, hfound, hnative, hn, hcall⟩ := Entry.native_of_lookup hentry
    exact .inr ⟨id, m, h, .native hfound hnative hn hcall⟩
  | fail e w' => exact .inl ⟨e, w', rfl⟩

/-- Every instruction that names a class uses the one that the name was resolved to. -/
theorem usesName_execute (f : Frame) {i : Instruction} {name : String}
    (h : i.className? = some name) : f.UsesName s w name i (execute s f w i) := by
  cases i with
  | new className =>
    cases h
    exact usesName_new f _
  | getStatic field =>
    cases h
    exact usesName_getStatic f field
  | putStatic field =>
    cases h
    exact usesName_putStatic f field
  | invokeStatic ref =>
    cases h
    exact usesName_invokeStatic f ref
  | _ => cases h

end Frame

/-! ### Runs -/

/-- A frame runs the code of a method that its class declared when the call began, which was some
time between two machines. -/
def Frame.RunsOwnCode (f : Frame) (start m : Machine) : Prop :=
  ∃ (m₀ : Machine) (b : Body), start.Operates m₀ ∧ m₀.Operates m ∧
    f.method ∈ (m₀.cls f.cls).decl.methods ∧ f.method.body = some b ∧ f.code = b.code.toArray

theorem Frame.RunsOwnCode.operate {f : Frame} {start m m' : Machine} (h : f.RunsOwnCode start m)
    (hoperates : m.Operates m') : f.RunsOwnCode start m' := by
  obtain ⟨m₀, b, hstart, hbefore, hrest⟩ := h
  exact ⟨m₀, b, hstart, hbefore.trans hoperates, hrest⟩

theorem Frame.RunsOwnCode.sameCall {f g : Frame} {start m : Machine} (h : f.RunsOwnCode start m)
    (hsame : f.SameCall g) : g.RunsOwnCode start m := by
  rwa [RunsOwnCode, hsame.cls, hsame.method, hsame.code]

theorem Frame.Begins.runsOwnCode {f : Frame} {start m : Machine} {b : Body} (h : f.Begins m b)
    (hstart : start.Operates m) : f.RunsOwnCode start m :=
  ⟨m, b, hstart, .refl, h.declared, h.body, h.code⟩

namespace Invocation

variable {σ : Type} {s : Surroundings σ} {start : Machine} {i j : Invocation σ}

/-- Every frame of an invocation runs code of its class, in calls that began after a machine. -/
structure RunsOwnCode (start : Machine) (i : Invocation σ) : Prop where
  operates : start.Operates i.world.machine
  frames : ∀ f ∈ i.current :: i.callers.frames, f.RunsOwnCode start i.world.machine

/-- A step leaves every frame with code of its class. -/
theorem RunsOwnCode.step (hi : i.RunsOwnCode start) (hplaced : i.Placed) (hs : s.Orderly)
    {instruction : Instruction} (hj : i.step s instruction = .running j) :
    j.RunsOwnCode start := by
  have hoperates := (hplaced.step hs instruction).1
  obtain ⟨f, callers, w⟩ := i
  have hcontinues := Frame.continues_execute (s := s) (w := w) { f with pc := f.pc + 1 } instruction
  rw [Invocation.step, world_settle] at hoperates
  rw [Invocation.step] at hj
  generalize Frame.execute s { f with pc := f.pc + 1 } w instruction = outcome at *
  have hbefore : ∀ g ∈ f :: callers.frames, g.RunsOwnCode start outcome.world.machine :=
    fun g hg ↦ (hi.frames g hg).operate hoperates
  have hstart := hi.operates.trans hoperates
  obtain ⟨hf, hcallers⟩ := List.forall_mem_cons.mp hbefore
  cases outcome with
  | next g w' =>
    cases hj
    refine ⟨hstart, List.forall_mem_cons.mpr ⟨?_, hcallers⟩⟩
    exact hf.sameCall ⟨hcontinues.cls, hcontinues.method, hcontinues.code, hcontinues.locals⟩
  | call caller callee w' =>
    obtain ⟨hcaller, b, hbegins⟩ := hcontinues
    simp only [settle, enter] at hj
    split at hj
    · cases hj
    · cases hj
      refine ⟨hstart, List.forall_mem_cons.mpr ⟨hbegins.runsOwnCode hstart,
        List.forall_mem_cons.mpr ⟨?_, hcallers⟩⟩⟩
      exact hf.sameCall ⟨hcaller.cls, hcaller.method, hcaller.code, hcaller.locals⟩
  | leave v w' =>
    simp only [settle, leave] at hj
    split at hj
    · cases hj
    · next caller rest hpop =>
      cases hj
      rw [CallStack.frames_of_pop? hpop] at hcallers
      obtain ⟨hcaller, hrest⟩ := List.forall_mem_cons.mp hcallers
      refine ⟨hstart, List.forall_mem_cons.mpr ⟨?_, hrest⟩⟩
      split
      · exact hcaller.sameCall (caller.sameCall_stack _)
      · exact hcaller
  | fail e w' => cases hj

/-- At every moment of a run each frame is of a class that is there, and runs code of that class. -/
theorem RunsOwnCode.steps {n : Nat} (hi : i.RunsOwnCode start) (hplaced : i.Placed)
    (hs : s.Orderly) (h : Steps s n i j) : j.Placed ∧ j.RunsOwnCode start := by
  refine h.preserves (P := fun j ↦ j.Placed ∧ j.RunsOwnCode start) ?_ ⟨hplaced, hi⟩
  intro j instruction k hj _ hstep
  exact ⟨(hj.1.step hs instruction).2 k hstep, hj.2.step hj.1 hs hstep⟩

/-- At a moment of a run every frame runs code of its class, in a call since the run started. A name
that the running frame resolves means the class that is found, which is one of the system namespace
that goes by the name unless it is the class itself, defined under this name. And an instruction
that names a class uses it. -/
structure ResolvesNames (s : Surroundings σ) (start : Machine) (i : Invocation σ) : Prop where
  code : i.RunsOwnCode start
  means : ∀ name id m, i.world.machine.resolve s.library i.current.cls name = .ok (id, m) →
    m.Means i.current.cls name id ∧
      (i.current.cls ∉ m.defined ∨ m.className i.current.cls ≠ name →
        (m.cls id).isSystem = true ∧ m.className id = name)
  uses : ∀ instruction name, i.next? = some instruction → instruction.className? = some name →
    { i.current with pc := i.current.pc + 1 }.UsesName s i.world name instruction
      (Frame.execute s { i.current with pc := i.current.pc + 1 } i.world instruction)

theorem Placed.resolvesNames (hi : i.Placed) (hm : i.world.machine.Isolated)
    (hcode : i.RunsOwnCode start) : i.ResolvesNames s start where
  code := hcode
  means name id m h := by
    obtain ⟨hisolated, -, hmeans⟩ := hm.resolve hi.current h
    exact ⟨hmeans, fun hother ↦ (hisolated.system_of_means hmeans hother).2⟩
  uses _ _ _ hname := Frame.usesName_execute _ hname

end Invocation

namespace World

variable {σ : Type} {s : Surroundings σ} {w w' : World σ}

/-- The frame that a call from outside begins with runs code of its class. -/
theorem runsOwnCode_enter {target : Target} {name : String} {type : MethodTy}
    {args : List Value} {callee : Frame} (h : w.enter s target name type args = .frame callee w') :
    Invocation.RunsOwnCode w'.machine ⟨callee, .empty, w'⟩ := by
  have hbegins : ∃ b, callee.Begins w'.machine b := by
    cases target with
    | static cls => exact Entry.begins_of_lookup h
    | virtual receiver => exact Entry.begins_of_lookup h
  obtain ⟨b, hb⟩ := hbegins
  exact ⟨.refl, List.forall_mem_singleton.mpr (hb.runsOwnCode .refl)⟩

/-- The worlds that a world becomes: by operations, by calls from outside with whatever natives, and
in the middle of such calls. -/
inductive Becomes (w : World σ) : World σ → Prop where
  | refl : Becomes w w
  | operate {v : World σ} {m : Machine} (host : σ) : Becomes w v → v.machine.Operation m →
    Becomes w ⟨m, host⟩
  | invoke {v : World σ} {s : Surroundings σ} (target : Target) (name : String) (type : MethodTy)
    (args : List Value) : Becomes w v → s.Orderly → Becomes w (v.invoke s target name type args).2
  | midway {v v' : World σ} {s : Surroundings σ} {target : Target} {name : String}
    {type : MethodTy} {args : List Value} {callee : Frame} {n : Nat} {i : Invocation σ} :
    Becomes w v → s.Orderly → v.enter s target name type args = .frame callee v' →
    Invocation.Steps s n ⟨callee, .empty, v'⟩ i → Becomes w i.world

theorem Becomes.operates (h : w.Becomes w') (hw : w.machine.Closed) :
    w.machine.Operates w'.machine := by
  induction h with
  | refl => exact .refl
  | operate host _ hoperation ih => exact ih.tail hoperation
  | invoke target name type args _ hs ih =>
    exact ih.trans (operates_invoke hs (ih.closed hw) target name type args)
  | midway _ hs hentry hsteps ih =>
    obtain ⟨rfl, hplaced⟩ := placed_enter (ih.closed hw) hentry
    exact ih.trans (hplaced.steps hs hsteps).1

/-- In every world that arises the namespaces are apart. -/
theorem Arises.isolated (hw : w.Arises) : w.machine.Isolated := by
  induction hw with
  | new config classpath host => exact Machine.isolated_new config classpath
  | operate host _ hoperation ih => exact (hoperation.isolated ih).1
  | invoke target name type args _ hs ih =>
    exact ((operates_invoke hs ih.closed target name type args).isolated ih).1
  | midway _ hs hentry hsteps ih =>
    obtain ⟨rfl, hplaced⟩ := placed_enter ih.closed hentry
    exact ((hplaced.steps hs hsteps).1.isolated ih).1

/-- At every moment of every run in a world that arises, names are resolved as the code means
them. -/
theorem Arises.resolvesNames (hw : w.Arises) (hs : s.Orderly) {target : Target} {name : String}
    {type : MethodTy} {args : List Value} {callee : Frame} {n : Nat} {i : Invocation σ}
    (hentry : w.enter s target name type args = .frame callee w')
    (hsteps : Invocation.Steps s n ⟨callee, .empty, w'⟩ i) : i.ResolvesNames s w.machine := by
  have hcode := runsOwnCode_enter hentry
  have hisolated := (Arises.midway hw hs hentry hsteps).isolated
  obtain ⟨rfl, hplaced⟩ := placed_enter hw.isolated.closed hentry
  obtain ⟨hplaced', hcode'⟩ := hcode.steps hplaced hs hsteps
  exact hplaced'.resolvesNames hisolated hcode'

/-- Namespaces are apart in every world that arises. A class is found under its own name only, and
is then of the system namespace. The classes that were defined are in other namespaces, no two of
them in one, and no name finds or loads any of them; what is defined next becomes one of them.
Whatever the world becomes, what was found under a name is found and loaded there. A superclass is
an older class of the system namespace, with the name that the present definition gives, so that a
chain goes down in age and ends. And at every moment of every run a name means in the code of a
class what it should: the class itself if that was defined under the name, and else the class of the
system namespace. -/
theorem Arises.namespaces (hw : w.Arises) :
    (∀ name id, w.machine.findLoaded name = some id → w.machine.Has id ∧
      w.machine.className id = name ∧ (w.machine.cls id).isSystem = true) ∧
    (w.machine.defined.map fun id ↦ (w.machine.cls id).loader).Nodup ∧
    (∀ id ∈ w.machine.defined, (w.machine.cls id).isSystem = false ∧
      (∀ name, w.machine.findLoaded name ≠ some id) ∧
      ∀ lib name m', w.machine.load lib name ≠ .ok (id, m')) ∧
    (∀ lib image id m', w.machine.define lib image = .ok (id, m') →
      ¬ w.machine.Has id ∧ m'.defined = w.machine.defined ++ [id]) ∧
    (∀ w', w.Becomes w' → w.machine.Retains w'.machine ∧
      ∀ name id, w.machine.findLoaded name = some id → w'.machine.findLoaded name = some id ∧
        ∀ lib, w'.machine.load lib name = .ok (id, w'.machine)) ∧
    (∀ id, ((w.machine.cls id).superclass? = none ↔ (w.machine.cls id).decl.superName = none) ∧
      (∀ a, (w.machine.cls id).superclass? = some a → a.index < id.index ∧
        (w.machine.cls a).isSystem = true ∧
        (w.machine.cls id).decl.superName = some (w.machine.className a) ∧
        w.machine.chain id = id :: w.machine.chain a) ∧
      (w.machine.chain id).Pairwise fun a b ↦ b.index < a.index) ∧
    ∀ (s : Surroundings σ) target name type args callee w' n (i : Invocation σ), s.Orderly →
      w.enter s target name type args = .frame callee w' →
      Invocation.Steps s n ⟨callee, .empty, w'⟩ i → i.ResolvesNames s w.machine := by
  have hm := hw.isolated
  refine ⟨?system, hm.loaders, ?defined, ?define, ?becomes, ?superclass, ?run⟩
  case system =>
    intro name id hid
    obtain ⟨hhas, hsystem, hname⟩ := (hm.system name id).mp hid
    exact ⟨hhas, hname, hsystem⟩
  case defined =>
    intro id hid
    refine ⟨((hm.defined id).mp hid).2, hm.findLoaded_ne hid, fun lib name m' h ↦ ?_⟩
    have hloaded := hm.load h
    exact hloaded.isolated.findLoaded_ne (hloaded.retains.defined id hid) name hloaded.found
  case define =>
    intro lib image id m' h
    exact (hm.define h).2.2
  case becomes =>
    intro w' h
    have hretains := ((h.operates hm.closed).isolated hm).2
    refine ⟨hretains, fun name id hid ↦ ?_⟩
    have hfound := hretains.system name id hid
    exact ⟨hfound, fun lib ↦ Machine.loadWithin_of_findLoaded hfound lib _⟩
  case superclass =>
    intro id
    refine ⟨hm.superclass?_eq_none_iff id, fun a ha ↦ ?_, hm.pairwise_chain id⟩
    obtain ⟨holder, hsystem, hname, hchain⟩ := hm.superclass ha
    exact ⟨holder, hsystem, hname, congrArg (id :: ·) hchain⟩
  case run => exact fun _ _ _ _ _ _ _ _ _ hs hentry hsteps ↦ hw.resolvesNames hs hentry hsteps

/-- The image of a class that extends the base class and makes an object of itself by name. -/
def makerImage : List UInt8 :=
  [84, 80, 67, 76, 1, 0, 1, 0, 3, 107, 46, 67, 1, 3, 107, 46, 65, 0, 1, 9, 0, 1, 109, 3, 40, 41, 86,
    1, 0, 1, 3, 80, 3, 107, 46, 67, 1, 112]

/-- The base class and the class that extends it. -/
def makerSurroundings : Surroundings Unit :=
  ⟨⟨#[.memory (.ofList [("k.A", baseImage), ("k.C", makerImage)])]⟩, fun _ ↦ none,
    fun _ ↦ 0⟩

/-- A world in which the class was loaded and also defined. -/
def makerWorld : World Unit :=
  match (Machine.new .standard [0]).load makerSurroundings.library "k.C" with
  | .ok (_, machine) =>
    match machine.define makerSurroundings.library makerImage with
    | .ok (_, machine) => ⟨machine, ()⟩
    | .error _ => ⟨machine, ()⟩
  | .error _ => ⟨.new .standard [0], ()⟩

theorem arises_makerWorld : makerWorld.Arises := by
  have hnew : Arises ⟨.new .standard [0], ()⟩ := .new .standard [0] ()
  unfold makerWorld
  split
  · next id machine h =>
    have hloaded := hnew.operate () (.load _ _ id h)
    split
    · next copy machine' h' => exact hloaded.operate () (.define _ _ copy h')
    · exact hloaded
  · exact hnew

/-- The frame that runs the method of the class that was defined. -/
def makerFrame : Frame :=
  ⟨⟨2⟩, ⟨9, "m", ⟨[], .void⟩, some ⟨0, 1, [.new "k.C", .pop, .ret]⟩⟩,
    #[.new "k.C", .pop, .ret], 0, #[], []⟩

/-- The name finds the class that was loaded, and the code of its copy means the copy by it. -/
theorem makerWorld_namespaces :
    makerWorld.Arises ∧ makerWorld.machine.findLoaded "k.C" = some ⟨1⟩ ∧
      makerWorld.machine.defined = [⟨2⟩] ∧ makerWorld.machine.className ⟨2⟩ = "k.C" ∧
      (∀ lib m', makerWorld.machine.load lib "k.C" ≠ .ok (⟨2⟩, m')) ∧
      Invocation.ResolvesNames makerSurroundings makerWorld.machine
        ⟨makerFrame, .empty, makerWorld⟩ := by
  have hdefined : makerWorld.machine.defined = [⟨2⟩] := by cbv
  have hentry : makerWorld.enter makerSurroundings (.static ⟨2⟩) "m" ⟨[], .void⟩ [] =
      .frame makerFrame makerWorld := by cbv
  have hs : makerSurroundings.Orderly := by
    intro _ _ h
    cases h
  have hall := arises_makerWorld.namespaces
  refine ⟨arises_makerWorld, by cbv, hdefined, by cbv, fun lib m' ↦ ?_, ?_⟩
  · exact (hall.2.2.1 ⟨2⟩ (hdefined ▸ .head _)).2.2 lib "k.C" m'
  · exact hall.2.2.2.2.2.2 _ _ _ _ _ _ _ 0 _ hs hentry (.refl _)

end World

end Hotswap
