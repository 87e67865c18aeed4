import Hotswap.Proofs.FrameSafety
import Hotswap.Proofs.Invocations

/-!
# Invocations on machines that verify

Every frame of an invocation stands at an instruction of a checked body, with the stack that the
walk over the body foresaw for that instruction. The frames that wait are one result short of it.
This is so at the beginning of every call, each step keeps it, and no error that blames a frame can
come of it.
-/

namespace Hotswap

/-- A frame runs a checked body, at an instruction for which the depth of its stack was foreseen,
once the awaited results are pushed. -/
structure Frame.Follows (f : Frame) (awaited : Nat) (b : Body) (depths : Nat → Option Nat)
    (reached : UInt16) : Prop where
  body : f.method.body = some b
  code : f.code = b.code.toArray
  checked : b.Checked f.method.argumentSlots f.method.type.returnsValue depths reached
  declared : reached ≤ b.maxStack
  locals : b.maxLocals.toNat ≤ f.locals.size
  depth : depths f.pc = some (f.stack.length + awaited)

/-- A frame follows the depths of its body. -/
def Frame.Holds (f : Frame) (awaited : Nat) : Prop :=
  ∃ b depths reached, f.Follows awaited b depths reached

/-- Frames wait one behind the other, the first of them for a call of some type. -/
def Frame.Await (type : MethodTy) : List Frame → Prop
  | [] => True
  | f :: frames => f.Holds type.pushes ∧ Frame.Await f.method.type frames

/-- Every frame of an invocation holds, on a machine of verified definitions. -/
structure Invocation.Holds {σ : Type} (i : Invocation σ) : Prop where
  machine : i.world.machine.Verified
  current : i.current.Holds 0
  callers : Frame.Await i.current.method.type i.callers.frames

/-- What a step comes to keeps the frames holding or blames none of them. -/
def Progress.Holds {σ : Type} : Progress σ → Prop
  | .running i => i.Holds
  | .ended result _ => ∀ e, result = .error e → e.isFrameFault = false

namespace Frame

/-- A frame that holds has no more on its stack than its body declares. -/
theorem Follows.length_le {f : Frame} {awaited : Nat} {b : Body} {depths : Nat → Option Nat}
    {reached : UInt16} (h : f.Follows awaited b depths reached) :
    f.stack.length ≤ b.maxStack.toNat := by
  have hreached := h.checked.agree.le_bound _ _ h.depth
  have hdeclared := UInt16.le_iff_toNat_le.mp h.declared
  omega

/-- A frame at the beginning of a method of a verified machine holds. -/
theorem Begins.holds {f : Frame} {m : Machine} {b : Body} (hm : m.Verified) (h : f.Begins m b) :
    f.Holds 0 := by
  obtain ⟨reached, hreached, hle⟩ := hm.reachedDepth_le h.declared h.body
  obtain ⟨depths, hchecked⟩ := Body.checked_of_reachedDepth hreached
  refine ⟨b, depths, reached, h.body, h.code, hchecked, hle, h.locals, ?_⟩
  rw [h.pc, h.stack]
  exact hchecked.agree.start

/-- A result that comes in makes a frame go on that waited for it. -/
theorem Holds.resume {f : Frame} {type : MethodTy} (h : f.Holds type.pushes) (v : Value) :
    (if type.returnsValue then f.push v else f).Holds 0 := by
  obtain ⟨b, depths, reached, hf⟩ := h
  refine ⟨b, depths, reached, ?_⟩
  split
  · next hreturns =>
    have hdepth := hf.depth
    rw [MethodTy.pushes, if_pos hreturns] at hdepth
    exact ⟨hf.body, hf.code, hf.checked, hf.declared, hf.locals, hdepth⟩
  · next hreturns =>
    have hdepth := hf.depth
    rw [MethodTy.pushes, if_neg hreturns] at hdepth
    exact ⟨hf.body, hf.code, hf.checked, hf.declared, hf.locals, hdepth⟩

/-- A frame that holds stands at an instruction that agrees with the depths and suits the body. -/
theorem Follows.agrees {f : Frame} {b : Body} {depths : Nat → Option Nat} {reached : UInt16}
    (h : f.Follows 0 b depths reached) :
    ∃ i, f.code[f.pc]? = some i ∧
      i.Agrees depths reached.toNat b.code.length f.pc f.stack.length ∧
      i.Suits b.maxLocals f.method.type.returnsValue b.code.length := by
  obtain ⟨i, hi, hagrees⟩ := h.checked.agree.agrees f.pc f.stack.length h.depth
  refine ⟨i, ?_, hagrees, h.checked.suits i (List.mem_of_getElem? hi)⟩
  rw [h.code, List.getElem?_toArray]
  exact hi

/-- The frame that comes of an instruction follows the same depths. -/
theorem Follows.goOn {f g : Frame} {b : Body} {depths : Nat → Option Nat} {reached : UInt16}
    {i : Instruction} {awaited : Nat} (h : f.Follows 0 b depths reached)
    (hi : i.Agrees depths reached.toNat b.code.length f.pc f.stack.length) (hg : f.SameCall g)
    (hlen : g.stack.length + awaited = i.depthBehind f.stack.length)
    (hpc : i.fallsThrough = true ∧ g.pc = f.pc + 1 ∨ ∃ t, i.target? = some t ∧ g.pc = t.toNat) :
    g.Follows awaited b depths reached := by
  refine ⟨hg.method ▸ h.body, hg.code ▸ h.code, hg.method ▸ h.checked, h.declared,
    hg.locals ▸ h.locals, ?_⟩
  rw [hlen]
  rcases hpc with ⟨hfalls, hpc⟩ | ⟨t, ht, hpc⟩
  · rw [hpc]
    exact (hi.falls hfalls).2
  · rw [hpc]
    exact (hi.jumps t ht).2

/-- An instruction at which a frame stands that holds does to the frame what it should. -/
theorem Follows.obeys {σ : Type} {f : Frame} {b : Body} {depths : Nat → Option Nat}
    {reached : UInt16} {i : Instruction} (h : f.Follows 0 b depths reached)
    (hi : i.Agrees depths reached.toNat b.code.length f.pc f.stack.length)
    (hsuits : i.Suits b.maxLocals f.method.type.returnsValue b.code.length)
    (s : Surroundings σ) (w : World σ) :
    { f with pc := f.pc + 1 }.Obeys i (execute s { f with pc := f.pc + 1 } w i) := by
  have hdepth := h.checked.agree.le_bound _ _ h.depth
  have hreached := reached.toNat_lt
  refine obeys_execute hi.pops_le (show f.stack.length ≤ 65535 by omega) ?_ ?_
  · intro index hload
    exact Nat.lt_of_lt_of_le (UInt16.lt_iff_toNat_lt.mp (hsuits.load index hload)) h.locals
  · intro index hstore
    exact Nat.lt_of_lt_of_le (UInt16.lt_iff_toNat_lt.mp (hsuits.store index hstore)) h.locals

end Frame

namespace Invocation

variable {σ : Type} {s : Surroundings σ}

/-- A step from an invocation that holds leads to one or ends without blame. -/
theorem Holds.step {i : Invocation σ} (hi : i.Holds) (hs : s.Lawful) {instruction : Instruction}
    (hnext : i.next? = some instruction) : Progress.Holds (i.step s instruction) := by
  obtain ⟨f, callers, w⟩ := i
  obtain ⟨hmachine, ⟨b, depths, reached, hf⟩, hcallers⟩ := hi
  obtain ⟨found, hfound, hagrees, hsuits⟩ := hf.agrees
  obtain rfl : found = instruction := Option.some.inj (hfound.symm.trans hnext)
  have hobeys := hf.obeys hagrees hsuits s w
  have hevolved := Frame.evolved_execute (w := w) hs { f with pc := f.pc + 1 } found
  simp only [Invocation.step]
  generalize Frame.execute s { f with pc := f.pc + 1 } w found = outcome at hobeys hevolved
  cases hobeys with
  | next hsame hlen hpc =>
    refine ⟨hevolved.verified hmachine, ⟨b, depths, reached, hf.goOn hagrees ?_ hlen hpc⟩, ?_⟩
    · exact ⟨hsame.cls, hsame.method, hsame.code, hsame.locals⟩
    · rw [hsame.method]
      exact hcallers
  | @call stack callee w' b' hfalls hlen hbegins =>
    simp only [settle, enter]
    split
    · rintro e ⟨⟩
      rfl
    · have hw' : w'.machine.Verified := hevolved.verified hmachine
      refine ⟨hw', hbegins.holds hw', ⟨b, depths, reached, ?_⟩, hcallers⟩
      exact hf.goOn hagrees ⟨rfl, rfl, rfl, rfl⟩ hlen (.inl ⟨hfalls, rfl⟩)
  | leave =>
    simp only [settle, leave]
    split
    · rintro e ⟨⟩
    · next caller rest hpop =>
      rw [CallStack.frames_of_pop? hpop] at hcallers
      exact ⟨hevolved.verified hmachine, hcallers.1.resume _, by
        split <;> exact hcallers.2⟩
  | fail hfault =>
    rintro e ⟨⟩
    exact hfault

/-- Steps keep the frames holding. -/
theorem Holds.steps {n : Nat} {i j : Invocation σ} (hi : i.Holds) (hs : s.Lawful)
    (h : Steps s n i j) : j.Holds := by
  refine h.preserves (fun i instruction j hi hnext hstep ↦ ?_) hi
  have hstep' := hi.step hs hnext
  rw [hstep] at hstep'
  exact hstep'

/-- An invocation whose frames hold is never past the end of the code. -/
theorem Holds.next? {i : Invocation σ} (hi : i.Holds) : i.next? ≠ none := by
  obtain ⟨b, depths, reached, hf⟩ := hi.current
  obtain ⟨found, hfound, -⟩ := hf.agrees
  rw [Invocation.next?, hfound]
  exact Option.some_ne_none found

/-- A run from frames that hold blames no frame. -/
theorem Holds.run {i : Invocation σ} (hi : i.Holds) (hs : s.Lawful) {budget fuel : Nat}
    {e : Failure} (h : (i.run s budget fuel).1 = .error e) : e.isFrameFault = false := by
  cases hrun : i.run s budget fuel with
  | mk result w =>
    rw [hrun] at h
    rcases steps_of_run hrun with ⟨n, j, -, hsteps, hends⟩ | ⟨j, -, -, -, rfl⟩
    · have hj := hi.steps hs hsteps
      cases hends with
      | pastEnd hnone => exact absurd hnone hj.next?
      | ended hnext hstep =>
        have hstep' := hj.step hs hnext
        rw [hstep] at hstep'
        exact hstep' e h
    · cases h
      rfl

/-- In every frame of an invocation that holds, the stack is within what the body declares with
which the frame began. -/
theorem Holds.length_le {i : Invocation σ} (hi : i.Holds) :
    ∀ f ∈ i.current :: i.callers.frames, ∃ b, f.method.body = some b ∧ f.code = b.code.toArray ∧
      f.stack.length ≤ b.maxStack.toNat := by
  have hawait : ∀ (frames : List Frame) (type : MethodTy), Frame.Await type frames →
      ∀ f ∈ frames, ∃ awaited, f.Holds awaited := by
    intro frames
    induction frames with
    | nil => simp
    | cons g frames ih =>
      rintro type ⟨hg, hframes⟩ f hf
      rcases List.mem_cons.mp hf with rfl | hf
      · exact ⟨_, hg⟩
      · exact ih _ hframes f hf
  intro f hf
  have hholds : ∃ awaited, f.Holds awaited := by
    rcases List.mem_cons.mp hf with rfl | hf
    · exact ⟨0, hi.current⟩
    · exact hawait _ _ hi.callers f hf
  obtain ⟨awaited, b, depths, reached, hfollows⟩ := hholds
  exact ⟨b, hfollows.body, hfollows.code, hfollows.length_le⟩

end Invocation

/-! ### The worlds that invocations lead to -/

/-- The world behind a step. -/
def Progress.world {σ : Type} : Progress σ → World σ
  | .running i => i.world
  | .ended _ w => w

namespace Invocation

variable {σ : Type} {s : Surroundings σ}

/-- Frames come and go without touching the world. -/
@[simp] theorem world_settle (returnsValue : Bool) (callers : CallStack) (o : Outcome σ) :
    (settle returnsValue callers o).world = o.world := by
  cases o with
  | next | fail => rfl
  | call caller callee w =>
    simp only [settle, enter]
    split <;> rfl
  | leave v w =>
    simp only [settle, leave]
    split <;> rfl

/-- A step changes the machine by operations of the machine only. -/
theorem evolves_step (hs : s.Lawful) (i : Invocation σ) (instruction : Instruction) :
    i.world.machine.Evolves (i.step s instruction).world.machine := by
  obtain ⟨f, callers, w⟩ := i
  rw [Invocation.step, world_settle]
  exact Frame.evolved_execute hs _ _

theorem Steps.evolves {n : Nat} {i j : Invocation σ} (h : Steps s n i j) (hs : s.Lawful) :
    i.world.machine.Evolves j.world.machine := by
  induction h with
  | refl i => exact .refl _
  | @head n i j k instruction hnext hstep _ ih =>
    have hevolves := evolves_step hs i instruction
    rw [hstep] at hevolves
    exact hevolves.trans ih

theorem evolves_run (hs : s.Lawful) (i : Invocation σ) (budget fuel : Nat) :
    i.world.machine.Evolves (i.run s budget fuel).2.machine := by
  apply run_induction (s := s) (P := fun j ↦ i.world.machine.Evolves j.world.machine)
    (Q := fun w ↦ i.world.machine.Evolves w.machine)
  · intro j instruction k hj hstep
    have hevolves := evolves_step hs j instruction
    rw [hstep] at hevolves
    exact hj.trans hevolves
  · intro j instruction result w hj hstep
    have hevolves := evolves_step hs j instruction
    rw [hstep] at hevolves
    exact hj.trans hevolves
  · exact fun _ hj ↦ hj
  · exact .refl _

end Invocation

/-- Running what was entered changes the machine by operations of the machine only. -/
theorem Entry.evolves_run {σ : Type} {s : Surroundings σ} (hs : s.Lawful) (entry : Entry σ) :
    entry.world.machine.Evolves (entry.run s).2.machine := by
  cases entry with
  | result | fail => exact .refl _
  | frame callee w =>
    apply Entry.run_frame_cases (P := fun r ↦ w.machine.Evolves r.2.machine)
    · exact fun _ ↦ .refl _
    · exact fun budget fuel ↦ Invocation.evolves_run hs ⟨callee, .empty, w⟩ budget fuel

/-- What a call from outside is made on. -/
inductive Target where
  /-- A class, for a static method. -/
  | static (cls : ClassId)
  /-- An object, for one of its methods. -/
  | virtual (receiver : ObjectId)

namespace World

variable {σ : Type}

/-- Enters a method from outside. -/
def enter (w : World σ) (s : Surroundings σ) (target : Target) (name : String) (type : MethodTy)
    (args : List Value) : Entry σ :=
  match target with
  | .static cls => Entry.static s cls name type args w
  | .virtual receiver => Entry.virtual s receiver name type args w

/-- Calls a method from outside. -/
def invoke (w : World σ) (s : Surroundings σ) (target : Target) (name : String) (type : MethodTy)
    (args : List Value) : Except Failure Value × World σ :=
  match target with
  | .static cls => w.invokeStatic s cls name type args
  | .virtual receiver => w.invokeVirtual s receiver name type args

/-- A call from outside runs what it enters. -/
theorem invoke_eq_run (w : World σ) (s : Surroundings σ) (target : Target) (name : String)
    (type : MethodTy) (args : List Value) :
    w.invoke s target name type args = (w.enter s target name type args).run s := by
  cases target <;> rfl

/-- Entering a method leaves the machine as its operations may. -/
theorem evolves_enter {s : Surroundings σ} (hs : s.Lawful) (w : World σ) (target : Target)
    (name : String) (type : MethodTy) (args : List Value) :
    w.machine.Evolves (w.enter s target name type args).world.machine := by
  cases target with
  | static cls => exact Entry.evolves_lookup hs _ _ _ _ _
  | virtual receiver => exact Entry.evolves_lookup hs _ _ _ _ _

/-- A call from outside changes the machine by operations of the machine only, so that a native may
make one. -/
theorem evolves_invoke {s : Surroundings σ} (hs : s.Lawful) (w : World σ) (target : Target)
    (name : String) (type : MethodTy) (args : List Value) :
    w.machine.Evolves (w.invoke s target name type args).2.machine := by
  rw [invoke_eq_run]
  exact (evolves_enter hs w target name type args).trans (Entry.evolves_run hs _)

/-- The worlds that a machine which verifies can come to: by the operations of the machine and by
calls from outside, with whatever natives. -/
inductive Reachable : World σ → Prop where
  | new (config : Config) (classpath : Classpath) (host : σ) : config.verifyOnDefine = true →
    Reachable ⟨.new config classpath, host⟩
  | evolve {w : World σ} {m : Machine} (host : σ) : Reachable w → w.machine.Evolves m →
    Reachable ⟨m, host⟩
  | invoke {w : World σ} {s : Surroundings σ} (target : Target) (name : String) (type : MethodTy)
    (args : List Value) : Reachable w → s.Lawful →
    Reachable (w.invoke s target name type args).2

/-- The definitions of a reachable machine are verified. -/
theorem Reachable.verified {w : World σ} (hw : w.Reachable) : w.machine.Verified := by
  induction hw with
  | new config classpath host hconfig => exact Machine.verified_new hconfig classpath
  | evolve host _ hevolves ih => exact hevolves.verified ih
  | invoke target name type args _ hs ih => exact (evolves_invoke hs _ _ _ _ _).verified ih

/-- A call from outside enters the method that it finds, unless it brings another number of
arguments. -/
theorem fits_or_mismatch_enter (w : World σ) (s : Surroundings σ) (target : Target) (name : String)
    (type : MethodTy) (args : List Value) :
    (w.enter s target name type args).Fits type ∨
      ∃ expected found, w.enter s target name type args =
        .machineError (.typeMismatch (.arguments expected found)) w := by
  have hlookup : ∀ start static args, (Entry.lookup s start name type static args w).Fits type ∨
      ∃ expected found, Entry.lookup s start name type static args w =
        .machineError (.typeMismatch (.arguments expected found)) w := by
    intro start static args
    by_cases h : ∀ owner d, w.machine.lookupMethod start name type = some (owner, d) →
        d.isStatic = static → args.length = d.argumentSlots
    · exact .inl (Entry.fits_lookup h)
    · simp only [Classical.not_forall] at h
      obtain ⟨owner, d, hd, rfl, hargs⟩ := h
      exact .inr ⟨_, _, Entry.lookup_eq_mismatch hd hargs⟩
  cases target with
  | static cls => exact hlookup cls true args
  | virtual receiver => exact hlookup _ false _

/-- The frame that a call from outside begins with holds. -/
theorem Reachable.holds {w w' : World σ} (hw : w.Reachable) {s : Surroundings σ} (hs : s.Lawful)
    {target : Target} {name : String} {type : MethodTy} {args : List Value} {callee : Frame}
    (h : w.enter s target name type args = .frame callee w') :
    Invocation.Holds ⟨callee, .empty, w'⟩ := by
  have hevolves := evolves_enter hs w target name type args
  rw [h] at hevolves
  have hverified : w'.machine.Verified := hevolves.verified hw.verified
  rcases fits_or_mismatch_enter w s target name type args with hfits | ⟨_, _, hmismatch⟩
  · rw [h] at hfits
    cases hfits with
    | frame hbegins _ => exact ⟨hverified, hbegins.holds hverified, trivial⟩
  · rw [h] at hmismatch
    cases hmismatch

/-- A call from outside on a machine that verifies never fails because code finds too little on
the stack, a local or an instruction that is not there or a call with the wrong arguments: the only
such failure is that of the call from outside itself, before any code has run. At every step, all
active frames have at most as much on their stacks as the bodies declare with which they began, and
the world is again a reachable one, in which natives may make such calls in turn. -/
theorem Reachable.invoke_safe {w : World σ} (hw : w.Reachable) {s : Surroundings σ}
    (hs : s.Lawful) (target : Target) (name : String) (type : MethodTy) (args : List Value) :
    (∀ e, (w.invoke s target name type args).1 = .error e → e.isFrameFault = true →
      ∃ expected found, e = .error (.machine (.typeMismatch (.arguments expected found))) ∧
        w.enter s target name type args = .fail e w) ∧
    ∀ callee w' n i, w.enter s target name type args = .frame callee w' →
      Invocation.Steps s n ⟨callee, .empty, w'⟩ i →
      i.world.Reachable ∧
        ∀ f ∈ i.current :: i.callers.frames, ∃ b, f.method.body = some b ∧
          f.code = b.code.toArray ∧ f.stack.length ≤ b.maxStack.toNat := by
  constructor
  · intro e he hfault
    rw [invoke_eq_run] at he
    rcases fits_or_mismatch_enter w s target name type args with
      hfits | ⟨expected, found, hmismatch⟩
    · generalize hentry : w.enter s target name type args = entry at he hfits
      cases hfits with
      | @frame callee w' b hbegins _ =>
        have hholds := hw.holds hs hentry
        simp only [Entry.run, Invocation.enter] at he
        split at he
        · next i hi =>
          split at hi
          · cases hi
          · cases hi
            rw [hholds.run hs he] at hfault
            cases hfault
        · next hi =>
          split at hi
          · cases hi
            cases he
            cases hfault
          · cases hi
      | result => cases he
      | fail hblame =>
        cases he
        rw [hblame] at hfault
        cases hfault
    · rw [hmismatch] at he
      cases he
      exact ⟨expected, found, rfl, hmismatch⟩
  · intro callee w' n i hentry hsteps
    have hevolves := evolves_enter hs w target name type args
    rw [hentry] at hevolves
    exact ⟨hw.evolve _ (hevolves.trans (hsteps.evolves hs)),
      ((hw.holds hs hentry).steps hs hsteps).length_le⟩

/-- The image of a class whose method "main" calls the native "swap" and then its method "scale",
which doubles its argument. -/
def doubling : List UInt8 :=
  [84, 80, 67, 76, 1, 0, 1, 0, 3, 97, 46, 66, 0, 0, 2, 8, 0, 5, 115, 99, 97, 108, 101, 4, 40, 73,
    41, 73, 1, 1, 2, 4, 32, 0, 0, 2, 48, 113, 8, 0, 4, 109, 97, 105, 110, 3, 40, 41, 73, 1, 0, 1,
    4, 17, 4, 0, 0, 0, 98, 4, 115, 119, 97, 112, 3, 40, 41, 86, 97, 3, 97, 46, 66, 5, 115, 99, 97,
    108, 101, 4, 40, 73, 41, 73, 113]

/-- The image of the same class with a method "scale" that triples. -/
def tripling : List UInt8 :=
  [84, 80, 67, 76, 1, 0, 1, 0, 3, 97, 46, 66, 0, 0, 2, 8, 0, 5, 115, 99, 97, 108, 101, 4, 40, 73,
    41, 73, 1, 1, 3, 6, 32, 0, 0, 2, 2, 48, 48, 113, 8, 0, 4, 109, 97, 105, 110, 3, 40, 41, 73, 1,
    0, 1, 4, 17, 4, 0, 0, 0, 98, 4, 115, 119, 97, 112, 3, 40, 41, 86, 97, 3, 97, 46, 66, 5, 115,
    99, 97, 108, 101, 4, 40, 73, 41, 73, 113]

/-- Surroundings in which the native "swap" redefines the first class so that it triples. -/
def swapping : Surroundings Unit :=
  ⟨⟨#[]⟩, fun name ↦ if name = "swap" then some fun _ w ↦
    match w.machine.redefine [⟨⟨0⟩, tripling⟩] with
    | .ok (_, machine) => (.value .void, { w with machine })
    | .error _ => (.failed "redefinition refused", w)
  else none, fun _ ↦ 0⟩

theorem lawful_swapping : swapping.Lawful := by
  intro name n hn args w
  simp only [swapping] at hn
  split at hn
  · cases hn
    dsimp only
    split
    · next ids machine h => exact (Machine.Change.redefine _ ids h).evolves
    · exact .refl _
  · cases hn

/-- A machine that has defined the doubling class, if it can. -/
def sampleWorld : World Unit :=
  match (Machine.new .standard []).define ⟨#[]⟩ doubling with
  | .ok (_, machine) => ⟨machine, ()⟩
  | .error _ => ⟨.new .standard [], ()⟩

theorem reachable_sampleWorld : sampleWorld.Reachable := by
  have hnew : Reachable ⟨.new .standard [], ()⟩ := .new .standard [] () rfl
  unfold sampleWorld
  split
  · next id machine h => exact hnew.evolve () (Machine.Change.define _ _ id h).evolves
  · exact hnew

/-- The frame of "main" at its beginning. -/
def sampleFrame : Frame where
  cls := ⟨0⟩
  method := ⟨Flag.static, "main", ⟨[], .prim .int⟩, some ⟨0, 1,
    [.const (.int 4), .callNative ⟨"swap", ⟨[], .void⟩⟩,
      .invokeStatic ⟨"a.B", "scale", ⟨[.prim .int], .prim .int⟩⟩, .retValue]⟩⟩
  code := #[.const (.int 4), .callNative ⟨"swap", ⟨[], .void⟩⟩,
    .invokeStatic ⟨"a.B", "scale", ⟨[.prim .int], .prim .int⟩⟩, .retValue]
  pc := 0
  locals := #[]
  stack := []

/-- A method that changes while its caller runs triples, and no frame outgrows its body. -/
theorem sampleWorld_invoke_safe :
    (sampleWorld.invoke swapping (.static ⟨0⟩) "main" ⟨[], .prim .int⟩ []).1 = .ok (.int 12) ∧
      ∀ n i, Invocation.Steps swapping n ⟨sampleFrame, .empty, sampleWorld⟩ i →
        i.world.Reachable ∧
          ∀ f ∈ i.current :: i.callers.frames, ∃ b, f.method.body = some b ∧
            f.code = b.code.toArray ∧ f.stack.length ≤ b.maxStack.toNat := by
  have henter : sampleWorld.enter swapping (.static ⟨0⟩) "main" ⟨[], .prim .int⟩ [] =
      .frame sampleFrame sampleWorld := by cbv
  have hsafe := reachable_sampleWorld.invoke_safe lawful_swapping (.static ⟨0⟩) "main"
    ⟨[], .prim .int⟩ []
  exact ⟨by cbv, fun n i ↦ hsafe.2 sampleFrame sampleWorld n i henter⟩

end World

end Hotswap
