import Hotswap.Proofs.Invocations
import Hotswap.Proofs.Outcomes

/-!
# Invocations side by side

Two calls that run different code for the same method can be watched side by side. An instruction
does the same to two frames with equal stacks, whatever else stands in them, unless it uses a local
or branches. From what the instructions of two codes do to their frames follows what whole
invocations do that hold these frames, with the same frames waiting below and running above.
-/

namespace Hotswap

/-! ### Instructions that only see the stack -/

namespace Frame

/-- A frame is about to return a value, which lies above the rest of the stack, if it is one. -/
def Returns (f : Frame) (v : Value) (rest : List Value) : Prop :=
  f.code[f.pc]? = some .ret ∧ v = .void ∧ f.stack = rest ∨
    f.code[f.pc]? = some .retValue ∧ f.stack = v :: rest

/-- A frame that has the stack of another one and is as it was otherwise. -/
def withStackOf (f g : Frame) : Frame := { f with stack := g.stack }

/-- Two frames look the same to an instruction that neither uses a local nor branches. -/
structure Alike (f g : Frame) : Prop where
  cls : g.cls = f.cls
  signature : g.method.signature = f.method.signature
  stack : g.stack = f.stack

end Frame

namespace Outcome

variable {σ : Type} {f g : Frame} {w : World σ}

/-- The same outcome in a frame of which only the stack changes. -/
def transfer (g : Frame) : Outcome σ → Outcome σ
  | next f w => next (g.withStackOf f) w
  | call caller callee w => call (g.withStackOf caller) callee w
  | leave v w => leave v w
  | fail e w => fail e w

theorem transfer_underflow (h : f.Alike g) (w : World σ) :
    underflow g w = (underflow f w).transfer g := by
  simp only [underflow, machineError, error, transfer, Frame.describe, h.cls, h.signature]

theorem transfer_pop1 {k k' : Value → Frame → Outcome σ} (h : f.Alike g)
    (hk : ∀ v stack, k' v { g with stack } = (k v { f with stack }).transfer g) :
    pop1 g w k' = (pop1 f w k).transfer g := by
  unfold pop1
  rw [h.stack]
  split
  · exact hk _ _
  · exact transfer_underflow h w

theorem transfer_pop2 {k k' : Value → Value → Frame → Outcome σ} (h : f.Alike g)
    (hk : ∀ left right stack,
      k' left right { g with stack } = (k left right { f with stack }).transfer g) :
    pop2 g w k' = (pop2 f w k).transfer g := by
  unfold pop2
  rw [h.stack]
  split
  · exact hk _ _ _
  · exact transfer_underflow h w

theorem transfer_popArguments {n : Nat} {k k' : List Value → Frame → Outcome σ} (h : f.Alike g)
    (hk : ∀ args stack, k' args { g with stack } = (k args { f with stack }).transfer g) :
    popArguments n g w k' = (popArguments n f w k).transfer g := by
  unfold popArguments
  rw [h.stack]
  split
  · exact hk _ _
  · exact transfer_underflow h w

theorem transfer_withValue {α : Type} {r : Except MachineError α} {k k' : α → Outcome σ}
    (hk : ∀ a, k' a = (k a).transfer g) : withValue r w k' = (withValue r w k).transfer g := by
  cases r with
  | ok a => exact hk a
  | error e => rfl

theorem transfer_onMachine {α : Type} {operation : Machine → Except MachineError α × Machine}
    {k k' : α → World σ → Outcome σ} (hk : ∀ a w, k' a w = (k a w).transfer g) :
    onMachine operation w k' = (onMachine operation w k).transfer g := by
  unfold onMachine
  split
  split
  · exact hk _ _
  · rfl

theorem transfer_resolve {s : Surroundings σ} {name : String} {k k' : ClassId → World σ → Outcome σ}
    {f' g' : Frame} (hcls : g'.cls = f'.cls) (hk : ∀ id w, k' id w = (k id w).transfer g) :
    resolve s g' name w k' = (resolve s f' name w k).transfer g := by
  unfold resolve
  rw [hcls]
  split
  · exact hk _ _
  · rfl

theorem transfer_resolveStatic {s : Surroundings σ} {field : FieldRef}
    {k k' : ClassId → World σ → Outcome σ} {f' g' : Frame} (hcls : g'.cls = f'.cls)
    (hk : ∀ id w, k' id w = (k id w).transfer g) :
    resolveStatic s g' field w k' = (resolveStatic s f' field w k).transfer g := by
  refine transfer_resolve hcls fun id w ↦ ?_
  split
  · exact hk _ _
  · rfl

theorem transfer_toOutcome (entry : Entry σ) (stack : List Value) (type : MethodTy) :
    entry.toOutcome { g with stack } type =
      (entry.toOutcome { f with stack } type).transfer g := by
  cases entry with
  | frame | fail => rfl
  | result =>
    simp only [Entry.toOutcome]
    split <;> rfl

end Outcome

namespace Frame

variable {σ : Type} {f g : Frame}

theorem Alike.refl (f : Frame) : f.Alike f := ⟨rfl, rfl, rfl⟩

/-- An instruction that neither stores nor branches does the same to frames that look the same to
it. -/
theorem execute_transfer {i : Instruction} (h : f.Alike g)
    (hload : ∀ index, i = .load index → g.locals[index.toNat]? = f.locals[index.toNat]?)
    (hstore : ∀ index, i ≠ .store index) (htarget : i.target? = none) (s : Surroundings σ)
    (w : World σ) : execute s g w i = (execute s f w i).transfer g := by
  cases i with
  | nop | const => simp only [execute, Outcome.transfer, withStackOf, push, ← h.stack]
  | ret => rfl
  | pop | dup | retValue =>
    simp only [execute]
    exact Outcome.transfer_pop1 h fun _ _ ↦ rfl
  | load index =>
    simp only [execute, load, hload index rfl]
    split
    · simp only [Outcome.transfer, withStackOf, push, h.stack]
    · rfl
  | store index => exact absurd rfl (hstore index)
  | jump | jumpIf => cases htarget
  | cmpEq =>
    simp only [execute]
    exact Outcome.transfer_pop2 h fun _ _ _ ↦ rfl
  | arithmetic | cmpLt =>
    simp only [execute]
    refine Outcome.transfer_pop2 h fun _ _ _ ↦ ?_
    exact Outcome.transfer_withValue fun _ ↦ rfl
  | new className =>
    simp only [execute, new]
    refine Outcome.transfer_resolve h.cls fun _ _ ↦ ?_
    refine Outcome.transfer_onMachine fun _ _ ↦ ?_
    simp only [Outcome.transfer, withStackOf, push, h.stack]
  | getField =>
    simp only [execute, getField]
    refine Outcome.transfer_pop1 h fun _ _ ↦ ?_
    refine Outcome.transfer_withValue fun _ ↦ ?_
    exact Outcome.transfer_withValue fun _ ↦ rfl
  | putField =>
    simp only [execute, putField]
    refine Outcome.transfer_pop2 h fun _ _ _ ↦ ?_
    refine Outcome.transfer_withValue fun _ ↦ ?_
    exact Outcome.transfer_onMachine fun _ _ ↦ rfl
  | getStatic =>
    simp only [execute, getStatic]
    refine Outcome.transfer_resolveStatic h.cls fun _ _ ↦ ?_
    refine Outcome.transfer_withValue fun _ ↦ ?_
    simp only [Outcome.transfer, withStackOf, push, h.stack]
  | putStatic =>
    simp only [execute, putStatic]
    refine Outcome.transfer_pop1 h fun _ _ ↦ ?_
    refine Outcome.transfer_resolveStatic (by exact h.cls) fun _ _ ↦ ?_
    exact Outcome.transfer_onMachine fun _ _ ↦ rfl
  | invokeVirtual =>
    simp only [execute, invokeVirtual]
    refine Outcome.transfer_popArguments h fun _ stack ↦ ?_
    have hrest : { f with stack }.Alike { g with stack } := ⟨h.cls, h.signature, rfl⟩
    refine (Outcome.transfer_pop1 hrest fun _ _ ↦ ?_).trans rfl
    refine Outcome.transfer_withValue fun _ ↦ ?_
    exact Outcome.transfer_toOutcome _ _ _
  | invokeStatic =>
    simp only [execute, invokeStatic]
    refine Outcome.transfer_popArguments h fun _ _ ↦ ?_
    refine Outcome.transfer_resolve (by exact h.cls) fun _ _ ↦ ?_
    exact Outcome.transfer_toOutcome _ _ _
  | callNative =>
    simp only [execute, callNative]
    refine Outcome.transfer_popArguments h fun _ _ ↦ ?_
    exact Outcome.transfer_toOutcome _ _ _

end Frame

/-! ### Outcomes side by side -/

/-- Two outcomes are the same, up to a frame in each that a relation relates. -/
inductive Outcome.Matches {σ : Type} (R : Frame → Frame → Prop) : Outcome σ → Outcome σ → Prop where
  | next {f g : Frame} (w : World σ) : R f g → Matches R (.next f w) (.next g w)
  | call {f g : Frame} (callee : Frame) (w : World σ) : R f g →
    Matches R (.call f callee w) (.call g callee w)
  | leave (v : Value) (w : World σ) : Matches R (.leave v w) (.leave v w)
  | fail (e : Failure) (w : World σ) : Matches R (.fail e w) (.fail e w)

namespace Frame

variable {σ : Type} {f g : Frame} {R : Frame → Frame → Prop}

/-- Frames in which an instruction only changes the stack are related after it if they are so with
every stack. -/
theorem matches_of_transfer {o o' : Outcome σ} (ho : o = o.transfer f) (ho' : o' = o.transfer g)
    (hR : ∀ stack, R { f with stack } { g with stack }) : o.Matches R o' := by
  rw [ho']
  cases o with
  | next h w =>
    rw [ho]
    exact .next w (hR h.stack)
  | call h callee w =>
    rw [ho]
    exact .call callee w (hR h.stack)
  | leave v w => exact .leave v w
  | fail e w => exact .fail e w

/-- An instruction that leaves its method does the same to frames that look the same to it. -/
theorem matches_leave {i : Instruction} (h : f.Alike g) (hi : i.flow = .leave) (s : Surroundings σ)
    (w : World σ) : (execute s f w i).Matches R (execute s g w i) := by
  cases i with
  | ret => exact .leave _ _
  | retValue =>
    rw [execute_transfer h (fun _ hi ↦ by cases hi) (fun _ hi ↦ by cases hi) rfl]
    simp only [execute, Outcome.pop1]
    split
    · exact .leave _ _
    · exact .fail _ _
  | _ => cases hi

/-- An instruction and the same one with another target do the same to two frames that look the
same to it: the frames that they leave behind are related if those with any other stack are, those
in which the local was stored and those that went to the targets. -/
theorem matches_execute {i : Instruction} {φ : UInt32 → UInt32} (h : f.Alike g)
    (hload : ∀ index, i = .load index → g.locals[index.toNat]? = f.locals[index.toNat]?)
    (hstay : i.fallsThrough = true → ∀ stack, R { f with stack } { g with stack })
    (hstore : ∀ index, i = .store index → ∀ v stack,
      (index.toNat < f.locals.size ↔ index.toNat < g.locals.size) ∧
        R { f with stack, locals := f.locals.setIfInBounds index.toNat v }
          { g with stack, locals := g.locals.setIfInBounds index.toNat v })
    (hjump : ∀ t, i.target? = some t → ∀ stack,
      R (({ f with stack } : Frame).goTo t) (({ g with stack } : Frame).goTo (φ t)))
    (s : Surroundings σ) (w : World σ) :
    (execute s f w i).Matches R (execute s g w (i.mapTarget φ)) := by
  cases i with
  | store index =>
    obtain ⟨hsize, -⟩ := hstore index rfl .void []
    simp only [Instruction.mapTarget, execute, store, Outcome.pop1, h.stack]
    split
    · next v stack _ =>
      by_cases hlt : index.toNat < f.locals.size
      · rw [if_pos hlt, if_pos (hsize.mp hlt)]
        exact .next w (hstore index rfl v stack).2
      · rw [if_neg hlt, if_neg fun hlt' ↦ hlt (hsize.mpr hlt')]
        exact .fail _ _
    · rw [Outcome.transfer_underflow h w]
      exact .fail _ _
  | jump t =>
    have hg : ({ g with stack := f.stack } : Frame) = g := by rw [← h.stack]
    have hR := hjump t rfl f.stack
    rw [hg] at hR
    exact .next w hR
  | jumpIf condition t =>
    simp only [Instruction.mapTarget, execute, jumpIf, Outcome.pop1, h.stack]
    split
    · next v stack _ =>
      cases v.isZero with
      | error e => exact .fail _ _
      | ok zero =>
        simp only [Outcome.withValue]
        split
        · exact .next w (hjump t rfl stack)
        · exact .next w (hstay rfl stack)
    · rw [Outcome.transfer_underflow h w]
      exact .fail _ _
  | ret | retValue => exact matches_leave h rfl s w
  | _ =>
    refine matches_of_transfer ?_ ?_ (hstay rfl)
    · exact execute_transfer (.refl f) (fun _ _ ↦ rfl) (fun _ hi ↦ by cases hi) rfl s w
    · exact execute_transfer h hload (fun _ hi ↦ by cases hi) rfl s w

end Frame

/-! ### Invocations side by side -/

/-- More calls wait, the last of them the innermost. -/
def CallStack.pushAll (c : CallStack) : List Frame → CallStack
  | [] => c
  | f :: frames => (c.pushAll frames).push f

/-- What waits is counted, whichever frames they are. -/
theorem CallStack.size_pushAll (c : CallStack) (frames : List Frame) :
    (c.pushAll frames).size = c.size + frames.length := by
  induction frames with
  | nil => rfl
  | cons f frames ih =>
    simp only [pushAll, push, ih, List.length_cons]
    omega

namespace Invocation

variable {σ : Type} {s : Surroundings σ} {R : Frame → Frame → Prop} {base : CallStack}

/-- Two invocations are the same, up to a frame in each that a relation relates. That frame runs
above `base`, or it waits there for calls that are the same in both. -/
inductive Beside (R : Frame → Frame → Prop) (base : CallStack) :
    Invocation σ → Invocation σ → Prop where
  | runs {f g : Frame} (w : World σ) : R f g → Beside R base ⟨f, base, w⟩ ⟨g, base, w⟩
  | waits {f g : Frame} (current : Frame) (above : List Frame) (w : World σ) : R f g →
    Beside R base ⟨current, (base.push f).pushAll above, w⟩
      ⟨current, (base.push g).pushAll above, w⟩

/-- Beside an invocation that runs the frame above `base`, the frame above `base` runs as well. -/
theorem Beside.of_runs {f : Frame} {w : World σ} {j : Invocation σ}
    (h : Beside R base ⟨f, base, w⟩ j) : ∃ g, j = ⟨g, base, w⟩ ∧ R f g := by
  generalize hi : (⟨f, base, w⟩ : Invocation σ) = i at h
  cases h with
  | runs w h =>
    cases hi
    exact ⟨_, rfl, h⟩
  | waits current above w h =>
    have hsize := congrArg (·.callers.size) hi
    simp only [CallStack.size_pushAll, CallStack.push] at hsize
    omega

/-- An invocation comes to another one in so many steps without leaving the call that it began above
`base` waiting frames. -/
inductive Stays (s : Surroundings σ) (base : Nat) : Nat → Invocation σ → Invocation σ → Prop where
  | refl (i : Invocation σ) : Stays s base 0 i i
  | head {n : Nat} {i j k : Invocation σ} {instruction : Instruction} :
    i.next? = some instruction → i.step s instruction = .running j → base ≤ j.callers.size →
    Stays s base n j k → Stays s base (n + 1) i k

/-- A step of an invocation that runs a frame above `base` or calls above that one stays in the call
or fails, unless it returns from that frame. -/
theorem Beside.stays_or_returns {i j : Invocation σ} (h : i.Beside R base j) {x : Instruction}
    (hx : i.next? = some x) :
    (∃ k, i.step s x = .running k ∧ base.size ≤ k.callers.size) ∨
      (∃ e w, i.step s x = .ended (.error e) w) ∨
      ∃ f w v rest, i = ⟨f, base, w⟩ ∧ f.Returns v rest := by
  have henter : ∀ (callee caller : Frame) (callers : CallStack) (w : World σ),
      base.size ≤ callers.size → (∃ k, enter callee (callers.push caller) w = .running k ∧
        base.size ≤ k.callers.size) ∨
          ∃ e w', enter callee (callers.push caller) w = .ended (.error e) w' := by
    intro callee caller callers w hle
    simp only [enter]
    split
    · exact .inr ⟨_, _, rfl⟩
    · exact .inl ⟨_, rfl, Nat.le_succ_of_le hle⟩
  cases h with
  | @runs f g w hR =>
    by_cases hflow : x.flow = .leave
    · cases x with
      | ret => exact .inr (.inr ⟨f, w, .void, f.stack, rfl, .inl ⟨hx, rfl, rfl⟩⟩)
      | retValue =>
        cases hstack : f.stack with
        | nil =>
          refine .inr (.inl ?_)
          simp only [Invocation.step, Frame.execute, Outcome.pop1, hstack]
          exact ⟨_, _, rfl⟩
        | cons v rest => exact .inr (.inr ⟨f, w, v, rest, rfl, .inr ⟨hx, hstack⟩⟩)
      | _ => cases hflow
    · have hremains := Frame.remains_execute (s := s) (w := w) hflow { f with pc := f.pc + 1 }
      simp only [Invocation.step]
      generalize Frame.execute s { f with pc := f.pc + 1 } w x = o at hremains
      cases o with
      | next f w => exact .inl ⟨_, rfl, Nat.le_refl _⟩
      | call caller callee w =>
        rcases henter callee caller base w (Nat.le_refl _) with hk | he
        · exact .inl hk
        · exact .inr (.inl he)
      | leave => cases hremains
      | fail e w => exact .inr (.inl ⟨e, w, rfl⟩)
  | @waits f g current above w hR =>
    have hle : base.size ≤ ((base.push f).pushAll above).size := by
      simp only [CallStack.size_pushAll, CallStack.push]
      omega
    simp only [Invocation.step]
    generalize Frame.execute s { current with pc := current.pc + 1 } w x = o
    cases o with
    | next f w => exact .inl ⟨_, rfl, hle⟩
    | call caller callee w =>
      rcases henter callee caller _ w hle with hk | he
      · exact .inl hk
      · exact .inr (.inl he)
    | leave v w =>
      refine .inl ?_
      cases above with
      | nil =>
        simp only [settle, leave, CallStack.pushAll, CallStack.pop?_push]
        exact ⟨_, rfl, Nat.le_refl _⟩
      | cons k above =>
        simp only [settle, leave, CallStack.pushAll, CallStack.pop?_push]
        refine ⟨_, rfl, ?_⟩
        simp only [CallStack.size_pushAll, CallStack.push]
        omega
    | fail e w => exact .inr (.inl ⟨e, w, rfl⟩)

end Invocation

/-- Two steps come to the same: up to a related frame in each invocation, or with these frames
gone. -/
inductive Progress.Beside {σ : Type} (R : Frame → Frame → Prop) (base : CallStack) :
    Progress σ → Progress σ → Prop where
  | running {i j : Invocation σ} : i.Beside R base j → Beside R base (.running i) (.running j)
  | left (i : Invocation σ) : i.callers.size < base.size → Beside R base (.running i) (.running i)
  | ended (result : Except Failure Value) (w : World σ) :
    Beside R base (.ended result w) (.ended result w)

namespace Invocation

variable {σ : Type} {s : Surroundings σ} {R : Frame → Frame → Prop} {base : CallStack}

/-- A call begins above related frames or hits the same limit. -/
theorem beside_enter {f g : Frame} (callee : Frame) (above : List Frame) (w : World σ) (h : R f g) :
    (enter callee ((base.push f).pushAll above) w).Beside R base
      (enter callee ((base.push g).pushAll above) w) := by
  simp only [enter, CallStack.size_pushAll]
  rw [show (base.push g).size = (base.push f).size from rfl]
  split
  · exact .ended _ _
  · exact .running (.waits callee above w h)

/-- An instruction of a call above the related frames comes to the same in both invocations. -/
theorem beside_settle {f g : Frame} (hpush : ∀ v, R (f.push v) (g.push v)) (returnsValue : Bool)
    (above : List Frame) (o : Outcome σ) (h : R f g) :
    (settle returnsValue ((base.push f).pushAll above) o).Beside R base
      (settle returnsValue ((base.push g).pushAll above) o) := by
  cases o with
  | next k w => exact .running (.waits k above w h)
  | call caller callee w => exact beside_enter callee (caller :: above) w h
  | leave v w =>
    cases above with
    | nil =>
      simp only [settle, leave, CallStack.pushAll, CallStack.pop?_push]
      cases returnsValue with
      | true => exact .running (.runs w (hpush v))
      | false => exact .running (.runs w h)
    | cons k above =>
      simp only [settle, leave, CallStack.pushAll, CallStack.pop?_push]
      exact .running (.waits _ above w h)
  | fail e w => exact .ended _ _

/-- Leaving the frame above `base` ends the invocation or goes on below. -/
theorem beside_leave (returnsValue : Bool) (v : Value) (w : World σ) :
    (leave returnsValue base v w).Beside R base (leave returnsValue base v w) := by
  unfold leave
  split
  · exact .ended _ _
  · next caller rest hpop =>
    refine .left _ ?_
    have hframes := congrArg List.length (CallStack.frames_of_pop? hpop)
    rw [List.length_cons, ← base.size_eq, ← rest.size_eq] at hframes
    show rest.size < base.size
    omega

/-- Matching outcomes of the related frames themselves come to the same in both invocations. -/
theorem beside_settle_of_matches {o o' : Outcome σ} (returnsValue : Bool) (h : o.Matches R o') :
    (settle returnsValue base o).Beside R base (settle returnsValue base o') := by
  cases h with
  | next w h => exact .running (.runs w h)
  | call callee w h => exact beside_enter callee [] w h
  | leave v w => exact beside_leave returnsValue v w
  | fail e w => exact .ended _ _

end Invocation

/-- What the frames of two codes must do to run side by side, as long as the instructions of the
first one are such as `P` says; the others leave the method. -/
structure Frame.Alongside {σ : Type} (s : Surroundings σ) (R : Frame → Frame → Prop)
    (P : Instruction → Prop) : Prop where
  push : ∀ f g v, R f g → R (f.push v) (g.push v)
  type : ∀ f g, R f g → g.method.type = f.method.type
  leaves : ∀ x, ¬P x → x.flow = .leave
  step : ∀ f g x, R f g → f.code[f.pc]? = some x → P x → ∃ y, g.code[g.pc]? = some y ∧
    ∀ w, (execute s { f with pc := f.pc + 1 } w x).Matches R
      (execute s { g with pc := g.pc + 1 } w y)

namespace Frame.Alongside

variable {σ : Type} {s : Surroundings σ} {R : Frame → Frame → Prop} {P : Instruction → Prop}
  {base : CallStack}

open Invocation

/-- An instruction of one of two invocations side by side has a counterpart in the other one that
comes to the same, unless it leaves the frame with which they differ. -/
theorem beside_step (h : Alongside s R P) {i j : Invocation σ} {x : Instruction}
    (hij : i.Beside R base j) (hx : i.next? = some x) :
    (∃ y, j.next? = some y ∧ (i.step s x).Beside R base (j.step s y)) ∨
      ¬P x ∧ i.callers = base := by
  cases hij with
  | @runs f g w hR =>
    by_cases hP : P x
    · obtain ⟨y, hy, hmatches⟩ := h.step f g x hR hx hP
      refine .inl ⟨y, hy, ?_⟩
      simp only [Invocation.step, h.type f g hR]
      exact beside_settle_of_matches _ (hmatches w)
    · exact .inr ⟨hP, rfl⟩
  | @waits f g current above w hR =>
    refine .inl ⟨x, hx, ?_⟩
    simp only [Invocation.step]
    exact beside_settle (fun v ↦ h.push f g v hR) _ above _ hR

private theorem not_beside_false {i j : Invocation σ}
    (h : i.Beside (fun _ _ ↦ False) base j) : False := by
  cases h <;> assumption

/-- An instruction that leaves its method does not stay in the call. -/
theorem size_lt_of_leave {i j : Invocation σ} {x : Instruction} (hx : x.flow = .leave)
    (h : i.step s x = .running j) : j.callers.size < i.callers.size := by
  obtain ⟨f, callers, w⟩ := i
  have hbeside : (settle _ callers _).Beside _ _ (settle _ callers _) :=
    beside_settle_of_matches f.method.type.returnsValue
      (matches_leave (R := fun _ _ ↦ False) (.refl { f with pc := f.pc + 1 }) hx s w)
  simp only [Invocation.step] at h
  rw [h] at hbeside
  cases hbeside with
  | running hj => exact (not_beside_false hj).elim
  | left _ hlt => exact hlt

/-- While an invocation stays in the call of its frame, the one beside it does the same. -/
theorem stays (h : Alongside s R P) {n : Nat} {i i' j : Invocation σ}
    (hi : i.Beside R base i') (hj : Stays s base.size n i j) :
    ∃ j', Stays s base.size n i' j' ∧ j.Beside R base j' := by
  induction hj generalizing i' with
  | refl i => exact ⟨i', .refl i', hi⟩
  | @head n i k j x hnext hstep hbase _ ih =>
    rcases h.beside_step hi hnext with ⟨y, hy, hprogress⟩ | ⟨hP, hcallers⟩
    · rw [hstep] at hprogress
      generalize hstep' : i'.step s y = p at hprogress
      cases hprogress with
      | @running _ k' hk =>
        obtain ⟨j', hj', hbeside⟩ := ih hk
        refine ⟨j', .head hy hstep' ?_ hj', hbeside⟩
        cases hk with
        | runs => exact Nat.le_refl _
        | waits current above w hR =>
          simp only [CallStack.size_pushAll, CallStack.push]
          omega
      | left _ hlt => omega
    · have hlt := size_lt_of_leave (h.leaves x hP) hstep
      rw [hcallers] at hlt
      omega

end Frame.Alongside

end Hotswap
