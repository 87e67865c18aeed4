import Hotswap.Machine.Run
import Hotswap.Proofs.ClassImage
import Hotswap.Proofs.Effects
import Hotswap.Proofs.Evolution

/-!
# What an instruction does to its frame

An instruction that finds its operands and its local leaves the depth that it should, goes on where
it may, and never fails for a lack of either. The machine changes by its own operations only.
-/

namespace Hotswap

/-- The errors that blame the frame: a value, a local, an instruction or an argument that is not
there, or one argument too many. -/
def MachineError.isFrameFault : MachineError → Bool
  | stackUnderflow _ => true
  | typeMismatch (.localIndex _) => true
  | typeMismatch (.endOfCode _) => true
  | typeMismatch (.arguments _ _) => true
  | _ => false

/-- Tells whether an error blames a frame. -/
def Error.isFrameFault : Error → Bool
  | machine e => e.isFrameFault
  | _ => false

/-- Tells whether a failure blames a frame. -/
def Failure.isFrameFault : Failure → Bool
  | error e => e.isFrameFault
  | aborted => false

/-- The natives change the machine by its own operations only. -/
def Surroundings.Lawful {σ : Type} (s : Surroundings σ) : Prop :=
  ∀ name n, s.native? name = some n →
    ∀ args (w : World σ), w.machine.Evolves (n args w).2.machine

/-! ### How the machine changes -/

/-- Entering a method changes the machine by operations of the machine only. -/
theorem Entry.evolves_lookup {σ : Type} {s : Surroundings σ} {w : World σ} (hs : s.Lawful)
    (start : ClassId) (name : String) (type : MethodTy) (static : Bool) (args : List Value) :
    w.machine.Evolves (lookup s start name type static args w).world.machine := by
  rcases callsAtMost_lookup (s := s) (w := w) start name type static args with
    hkeep | ⟨native, n, args', hn, hcall⟩
  · rw [hkeep]
    exact .refl _
  · rw [hcall]
    exact hs native n hn args' w

/-- Every instruction changes the machine by operations of the machine only. -/
theorem Frame.evolved_execute {σ : Type} {s : Surroundings σ} {w : World σ} (hs : s.Lawful)
    (f : Frame) (i : Instruction) : w.machine.Evolves (execute s f w i).world.machine := by
  have heffect := (acts_execute (s := s) (w := w) f i).effect
  generalize (execute s f w i).world = w' at heffect ⊢
  cases heffect with
  | keep => exact .refl _
  | resolve h => exact Machine.evolves_resolve h
  | allocate h => exact (Machine.evolves_resolve h).tail (.allocate _ _)
  | setStatic owner field v h => exact (Machine.evolves_resolve h).tail (.setStatic _ owner field v)
  | setField object field v => exact (Machine.Change.setField _ object field v).evolves
  | native args hn => exact hs _ _ hn args w
  | @resolveNative _ _ _ m _ args h hn =>
    exact (Machine.evolves_resolve h).trans (hs _ _ hn args { w with machine := m })

/-! ### Failures that do not blame the frame -/

namespace Value

theorem isFrameFault_asObject {v : Value} {e : MachineError} (h : v.asObject = .error e) :
    e.isFrameFault = false := by
  cases v <;> cases h <;> rfl

theorem isFrameFault_isZero {v : Value} {e : MachineError} (h : v.isZero = .error e) :
    e.isFrameFault = false := by
  cases v <;> cases h <;> rfl

theorem isFrameFault_arithmetic {text : Value → String} {op : Arithmetic} {left right : Value}
    {e : MachineError} (h : arithmetic text op left right = .error e) : e.isFrameFault = false := by
  unfold arithmetic at h
  split at h <;> cases h
  rfl

theorem isFrameFault_less {left right : Value} {e : MachineError}
    (h : left.less right = .error e) : e.isFrameFault = false := by
  unfold less at h
  split at h <;> cases h
  rfl

end Value

theorem Library.isFrameFault_find {lib : Library} {name : String} {classpath : Classpath}
    {e : Error} (h : lib.find name classpath = .error e) : e.isFrameFault = false := by
  induction classpath with
  | nil => cases h
  | cons i rest ih =>
    simp only [find] at h
    split at h
    · exact ih h
    · next source _ =>
      split at h
      · exact ih h
      · cases h
      · next he =>
        cases h
        cases source with
        | memory images => cases he
        | directory root files =>
          simp only [Source.find] at he
          split at he
          · obtain ⟨fault, -, rfl⟩ := mapError_eq_error.mp he
            rfl
          · cases he

namespace Machine

theorem isFrameFault_readClass {m : Machine} {image : List UInt8} {e : Error}
    (h : m.readClass image = .error e) : e.isFrameFault = false := by
  rcases bind_eq_error.mp h with h | ⟨decl, -, h⟩
  · rcases ClassDecl.fails_decode h with rfl | rfl | ⟨cause, rfl⟩ | ⟨limit, rfl⟩ <;> rfl
  · split at h
    · dsimp only at h
      rcases bind_eq_error.mp h with h | ⟨-, -, h⟩
      · obtain ⟨method, cause, rfl⟩ := ClassDecl.fails_verify h
        rfl
      · cases h
    · cases h

theorem isFrameFault_findClass {m : Machine} {lib : Library} {name : String} {e : Error}
    (h : m.findClass lib name = .error e) : e.isFrameFault = false := by
  rcases bind_eq_error.mp h with h | ⟨found, -, h⟩
  · exact Library.isFrameFault_find h
  · cases found with
    | none =>
      cases h
      rfl
    | some image =>
      rcases bind_eq_error.mp h with h | ⟨decl, -, h⟩
      · exact isFrameFault_readClass h
      · split at h
        · cases h
        · cases h
          rfl

theorem isFrameFault_loadWithin {lib : Library} {levels : Nat} {m : Machine} {name : String}
    {e : Error} (h : loadWithin lib levels m name = .error e) : e.isFrameFault = false := by
  induction levels generalizing m name with
  | zero =>
    unfold loadWithin at h
    split at h <;> cases h
    rfl
  | succ levels ih =>
    unfold loadWithin at h
    split at h
    · cases h
    · rcases bind_eq_error.mp h with h | ⟨decl, -, h⟩
      · exact isFrameFault_findClass h
      · cases hs : decl.superName with
        | none =>
          rw [hs] at h
          cases h
        | some superName =>
          rw [hs] at h
          rcases bind_eq_error.mp h with h | ⟨⟨id, m₁⟩, -, h⟩
          · exact ih h
          · cases h

/-- Resolving a name never blames a frame. -/
theorem isFrameFault_resolve {m : Machine} {lib : Library} {context : ClassId} {name : String}
    {e : Error} (h : m.resolve lib context name = .error e) : e.isFrameFault = false := by
  unfold resolve at h
  split at h
  · cases h
  · exact isFrameFault_loadWithin h

end Machine

/-! ### What an instruction does to its frame -/

namespace Frame

/-- Two frames are of one call: of the same class, method and code, with as many locals. -/
structure SameCall (f g : Frame) : Prop where
  cls : g.cls = f.cls
  method : g.method = f.method
  code : g.code = f.code
  locals : g.locals.size = f.locals.size

/-- A frame at the beginning of a method that a class of the machine declares. -/
structure Begins (f : Frame) (m : Machine) (b : Body) : Prop where
  declared : f.method ∈ (m.cls f.cls).decl.methods
  body : f.method.body = some b
  code : f.code = b.code.toArray
  pc : f.pc = 0
  stack : f.stack = []
  locals : b.maxLocals.toNat ≤ f.locals.size

variable {σ : Type}

/-- What may come of an instruction in a frame that is already past it. -/
inductive Obeys (f : Frame) (i : Instruction) : Outcome σ → Prop where
  | next {g : Frame} {w : World σ} : f.SameCall g →
    g.stack.length = i.depthBehind f.stack.length →
    (i.fallsThrough = true ∧ g.pc = f.pc ∨ ∃ t, i.target? = some t ∧ g.pc = t.toNat) →
    Obeys f i (.next g w)
  | call {stack : List Value} {callee : Frame} {w : World σ} {b : Body} :
    i.fallsThrough = true →
    stack.length + callee.method.type.pushes = i.depthBehind f.stack.length →
    callee.Begins w.machine b → Obeys f i (.call { f with stack } callee w)
  | leave {v : Value} {w : World σ} : i.flow = .leave → Obeys f i (.leave v w)
  | fail {e : Failure} {w : World σ} : e.isFrameFault = false → Obeys f i (.fail e w)

/-- An instruction without a branch goes on with another stack. -/
theorem obeys_next {f : Frame} {i : Instruction} {w : World σ} (hf : i.fallsThrough = true)
    {stack : List Value} (h : stack.length = i.depthBehind f.stack.length) :
    f.Obeys i (.next { f with stack } w) :=
  .next ⟨rfl, rfl, rfl, rfl⟩ h (.inl ⟨hf, rfl⟩)

/-- An instruction that fails with an error of the machine does not blame its frame. -/
theorem obeys_machineError {f : Frame} {i : Instruction} {w : World σ} {e : MachineError}
    (h : e.isFrameFault = false) : f.Obeys i (.machineError e w) :=
  .fail h

end Frame

namespace Entry

variable {σ : Type} {s : Surroundings σ} {w : World σ}

/-- What may come of entering a method of some type, other than a complaint about arguments. -/
inductive Fits (type : MethodTy) : Entry σ → Prop where
  | frame {callee : Frame} {w : World σ} {b : Body} : callee.Begins w.machine b →
    callee.method.type = type → Fits type (.frame callee w)
  | result {v : Value} {w : World σ} : Fits type (.result v w)
  | fail {e : Failure} {w : World σ} : e.isFrameFault = false → Fits type (.fail e w)

theorem fits_native (name : String) (type type' : MethodTy) (args : List Value) :
    (native s name type args w).Fits type' := by
  unfold native
  split
  · exact .fail rfl
  · split
    · exact .result
    · exact .fail rfl
    · exact .fail rfl

/-- Entering a method that was found complains about the arguments when their number is not the one
that the method takes. -/
theorem lookup_eq_mismatch {start owner : ClassId} {name : String} {type : MethodTy}
    {args : List Value} {d : MethodDecl}
    (hd : w.machine.lookupMethod start name type = some (owner, d))
    (hargs : args.length ≠ d.argumentSlots) :
    lookup s start name type d.isStatic args w =
      machineError (.typeMismatch (.arguments d.argumentSlots args.length)) w := by
  simp only [lookup, hd, beq_self_eq_true, if_true, method, if_pos hargs]

/-- A call that brings the arguments of the method that it finds enters it without complaint. -/
theorem fits_lookup {start : ClassId} {name : String} {type : MethodTy} {static : Bool}
    {args : List Value}
    (hargs : ∀ owner d, w.machine.lookupMethod start name type = some (owner, d) →
      d.isStatic = static → args.length = d.argumentSlots) :
    (lookup s start name type static args w).Fits type := by
  unfold lookup
  split
  · exact .fail rfl
  · next owner d hd =>
    obtain ⟨hdeclared, htype⟩ := Machine.mem_of_lookupMethod hd
    dsimp only
    split
    · next hstatic =>
      unfold method
      rw [if_neg (not_not_intro (hargs owner d hd (beq_iff_eq.mp hstatic)))]
      split
      · exact fits_native _ _ _ _
      · split
        · exact .fail rfl
        · next b hb =>
          refine .frame ⟨hdeclared, hb, rfl, rfl, rfl, ?_⟩ htype
          simp
          omega
    · exact .fail rfl

/-- What is entered from a frame that has given up the arguments leaves the depth of the call. -/
theorem obeys_toOutcome {entry : Entry σ} {f : Frame} {i : Instruction} {type : MethodTy}
    {stack : List Value} (he : entry.Fits type) (hf : i.fallsThrough = true)
    (h : stack.length + type.pushes = i.depthBehind f.stack.length) :
    f.Obeys i (entry.toOutcome { f with stack } type) := by
  cases he with
  | frame hbegins htype =>
    subst htype
    exact .call hf h hbegins
  | result =>
    simp only [toOutcome]
    split
    · next hreturns =>
      rw [MethodTy.pushes, if_pos hreturns] at h
      exact Frame.obeys_next hf h
    · next hreturns =>
      rw [MethodTy.pushes, if_neg hreturns] at h
      exact Frame.obeys_next hf h
  | fail hfault => exact .fail hfault

end Entry

namespace Frame

variable {σ : Type} {s : Surroundings σ} {w : World σ} {f : Frame}

theorem obeys_getField {field : FieldRef} (h : 1 ≤ f.stack.length) :
    f.Obeys (.getField field) (f.getField field w) := by
  refine Outcome.pop1_cases (fun hnil ↦ ?_) fun v stack hstack ↦ ?_
  · simp [hnil] at h
  · refine Outcome.withValue_cases (fun e he ↦ ?_) fun o _ ↦ ?_
    · exact obeys_machineError (Value.isFrameFault_asObject he)
    · refine Outcome.withValue_cases (fun e he ↦ ?_) fun v _ ↦ ?_
      · simp only [Machine.getField] at he
        split at he <;> cases he
        exact obeys_machineError rfl
      · exact obeys_next rfl (by simp [hstack, Instruction.depthBehind])

theorem obeys_putField {field : FieldRef} (h : 2 ≤ f.stack.length) :
    f.Obeys (.putField field) (f.putField field w) := by
  refine Outcome.pop2_cases (fun hshort ↦ ?_) fun object v stack hstack ↦ ?_
  · omega
  · refine Outcome.withValue_cases (fun e he ↦ ?_) fun o _ ↦ ?_
    · exact obeys_machineError (Value.isFrameFault_asObject he)
    · refine Outcome.onMachine_cases (fun e m he ↦ ?_) fun _ m _ ↦ ?_
      · simp only [Machine.setField] at he
        split at he <;> cases he
        exact obeys_machineError rfl
      · exact obeys_next rfl (by simp [hstack, Instruction.depthBehind])

theorem obeys_getStatic {field : FieldRef} :
    f.Obeys (.getStatic field) (getStatic s f field w) := by
  refine Outcome.resolveStatic_cases (fun e he ↦ .fail (Machine.isFrameFault_resolve he))
    (fun _ _ _ ↦ obeys_machineError rfl) fun _ m owner _ ↦ ?_
  refine Outcome.withValue_cases (fun e he ↦ ?_) fun v _ ↦ obeys_next rfl rfl
  simp only [LiveClass.getStatic] at he
  split at he <;> cases he
  exact obeys_machineError rfl

theorem obeys_putStatic {field : FieldRef} (h : 1 ≤ f.stack.length) :
    f.Obeys (.putStatic field) (putStatic s f field w) := by
  refine Outcome.pop1_cases (fun hnil ↦ ?_) fun v stack hstack ↦ ?_
  · simp [hnil] at h
  · refine Outcome.resolveStatic_cases (fun e he ↦ .fail (Machine.isFrameFault_resolve he))
      (fun _ _ _ ↦ obeys_machineError rfl) fun _ m owner _ ↦ ?_
    refine Outcome.onMachine_cases (fun e m he ↦ ?_) fun _ m _ ↦ ?_
    · simp only [Machine.setStatic] at he
      split at he <;> cases he
      exact obeys_machineError rfl
    · exact obeys_next rfl (by simp [hstack, Instruction.depthBehind])

theorem obeys_new {className : String} : f.Obeys (.new className) (new s f className w) := by
  refine Outcome.resolve_cases (fun e he ↦ .fail (Machine.isFrameFault_resolve he))
    fun id m _ ↦ ?_
  refine Outcome.onMachine_cases (fun e m he ↦ ?_) fun _ m _ ↦ obeys_next rfl rfl
  simp only [Machine.allocate] at he
  split at he <;> cases he
  exact obeys_machineError rfl

theorem obeys_jumpIf {condition : Condition} {target : UInt32} (h : 1 ≤ f.stack.length) :
    f.Obeys (.jumpIf condition target) (f.jumpIf condition target w) := by
  refine Outcome.pop1_cases (fun hnil ↦ ?_) fun v stack hstack ↦ ?_
  · simp [hnil] at h
  · refine Outcome.withValue_cases (fun e he ↦ ?_) fun zero _ ↦ ?_
    · exact obeys_machineError (Value.isFrameFault_isZero he)
    · have hlen : stack.length =
          (Instruction.jumpIf condition target).depthBehind f.stack.length := by
        simp [hstack, Instruction.depthBehind]
      split
      · exact .next ⟨rfl, rfl, rfl, rfl⟩ hlen (.inr ⟨target, rfl, rfl⟩)
      · exact obeys_next rfl hlen

/-- A call from code brings as many arguments as its method takes: their number was a depth, so that
the count of the method does not stop short of it. -/
theorem obeys_invokeStatic {m : MethodRef} (h : m.type.params.length ≤ f.stack.length)
    (hsmall : f.stack.length ≤ 65535) :
    f.Obeys (.invokeStatic m) (invokeStatic s f m w) := by
  refine Outcome.popArguments_cases (fun hshort ↦ ?_) fun _ ↦ ?_
  · omega
  · refine Outcome.resolve_cases (fun e he ↦ .fail (Machine.isFrameFault_resolve he))
      fun id m' _ ↦ ?_
    refine Entry.obeys_toOutcome (Entry.fits_lookup fun owner d hd hstatic ↦ ?_) rfl ?_
    · obtain ⟨-, htype⟩ := Machine.mem_of_lookupMethod hd
      simp only [MethodDecl.argumentSlots, htype, hstatic, List.length_reverse, List.length_take]
      simp
      omega
    · simp [Instruction.depthBehind]

theorem obeys_invokeVirtual {m : MethodRef} (h : m.type.params.length + 1 ≤ f.stack.length)
    (hsmall : f.stack.length ≤ 65535) :
    f.Obeys (.invokeVirtual m) (invokeVirtual s f m w) := by
  refine Outcome.popArguments_cases (fun hshort ↦ ?_) fun _ ↦ ?_
  · omega
  · have hdrop : (f.stack.drop m.type.params.length).length =
        f.stack.length - m.type.params.length := List.length_drop
    refine Outcome.pop1_cases (fun hnil ↦ ?_) fun v stack hstack ↦ ?_
    · rw [show f.stack.drop m.type.params.length = [] from hnil, List.length_nil] at hdrop
      omega
    · rw [show f.stack.drop m.type.params.length = v :: stack from hstack,
        List.length_cons] at hdrop
      refine Outcome.withValue_cases (fun e he ↦ ?_) fun receiver _ ↦ ?_
      · exact obeys_machineError (Value.isFrameFault_asObject he)
      refine Entry.obeys_toOutcome (Entry.fits_lookup fun owner d hd hstatic ↦ ?_) rfl ?_
      · obtain ⟨-, htype⟩ := Machine.mem_of_lookupMethod hd
        simp only [MethodDecl.argumentSlots, htype, hstatic, List.length_cons,
          List.length_reverse, List.length_take]
        simp
        omega
      · simp only [Instruction.depthBehind, Instruction.pops, Instruction.pushes]
        omega

theorem obeys_callNative {n : NativeRef} (h : n.type.params.length ≤ f.stack.length) :
    f.Obeys (.callNative n) (callNative s f n w) := by
  refine Outcome.popArguments_cases (fun hshort ↦ ?_) fun _ ↦ ?_
  · omega
  · refine Entry.obeys_toOutcome (Entry.fits_native _ _ _ _) rfl ?_
    simp [Instruction.depthBehind]

/-- An instruction that finds its operands and its local obeys its static description. -/
theorem obeys_execute {i : Instruction} (hpops : i.pops ≤ f.stack.length)
    (hsmall : f.stack.length ≤ 65535)
    (hload : ∀ index, i = .load index → index.toNat < f.locals.size)
    (hstore : ∀ index, i = .store index → index.toNat < f.locals.size) :
    f.Obeys i (execute s f w i) := by
  cases i with
  | nop => exact obeys_next rfl rfl
  | const c => exact obeys_next rfl rfl
  | pop | dup =>
    rw [execute]
    refine Outcome.pop1_cases (fun hnil ↦ ?_) fun v stack hstack ↦ ?_
    · simp [hnil] at hpops
    · exact obeys_next rfl (by simp [hstack, Instruction.depthBehind, push])
  | load index =>
    rw [execute, load, Array.getElem?_eq_getElem (hload index rfl)]
    exact obeys_next rfl rfl
  | store index =>
    rw [execute, store]
    refine Outcome.pop1_cases (fun hnil ↦ ?_) fun v stack hstack ↦ ?_
    · simp [hnil] at hpops
    · rw [if_pos (hstore index rfl)]
      refine .next ⟨rfl, rfl, rfl, Array.size_setIfInBounds⟩ ?_ (.inl ⟨rfl, rfl⟩)
      simp [hstack, Instruction.depthBehind]
  | arithmetic op =>
    rw [execute]
    refine Outcome.pop2_cases (fun hshort ↦ ?_) fun left right stack hstack ↦ ?_
    · simp only [Instruction.pops] at hpops
      omega
    · refine Outcome.withValue_cases (fun e he ↦ ?_) fun v _ ↦ ?_
      · exact obeys_machineError (Value.isFrameFault_arithmetic he)
      · exact obeys_next rfl (by simp [hstack, Instruction.depthBehind])
  | cmpEq =>
    rw [execute]
    refine Outcome.pop2_cases (fun hshort ↦ ?_) fun left right stack hstack ↦ ?_
    · simp only [Instruction.pops] at hpops
      omega
    · exact obeys_next rfl (by simp [hstack, Instruction.depthBehind])
  | cmpLt =>
    rw [execute]
    refine Outcome.pop2_cases (fun hshort ↦ ?_) fun left right stack hstack ↦ ?_
    · simp only [Instruction.pops] at hpops
      omega
    · refine Outcome.withValue_cases (fun e he ↦ ?_) fun v _ ↦ ?_
      · exact obeys_machineError (Value.isFrameFault_less he)
      · exact obeys_next rfl (by simp [hstack, Instruction.depthBehind])
  | jump target => exact .next ⟨rfl, rfl, rfl, rfl⟩ rfl (.inr ⟨target, rfl, rfl⟩)
  | jumpIf condition target => exact obeys_jumpIf hpops
  | new className => exact obeys_new
  | getField field => exact obeys_getField hpops
  | putField field => exact obeys_putField hpops
  | getStatic field => exact obeys_getStatic
  | putStatic field => exact obeys_putStatic hpops
  | invokeVirtual m => exact obeys_invokeVirtual hpops hsmall
  | invokeStatic m => exact obeys_invokeStatic hpops hsmall
  | callNative n => exact obeys_callNative hpops
  | ret => exact .leave rfl
  | retValue =>
    rw [execute]
    refine Outcome.pop1_cases (fun hnil ↦ ?_) fun v stack hstack ↦ ?_
    · simp [hnil] at hpops
    · exact .leave rfl

end Frame

end Hotswap
