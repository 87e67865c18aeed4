import Hotswap.Proofs.LimitsIgnored

/-!
# Invocations under limits

The course of an invocation is followed instruction by instruction, over all of its calls and with
no bound on their number. A budget cuts the course off after as many instructions, a limit on calls
where one call too many would begin, and neither changes anything before that.
-/

namespace Hotswap

/-! ### The course of an invocation -/

namespace Progress

variable {σ : Type} {s : Surroundings σ} {p q : Progress σ}

/-- What an invocation comes to by executing so many instructions. -/
inductive After (s : Surroundings σ) : Nat → Progress σ → Progress σ → Prop where
  | refl (p : Progress σ) : After s 0 p p
  | head {n : Nat} {i : Invocation σ} {instruction : Instruction} {p : Progress σ} :
    i.next? = some instruction → After s n (i.step s instruction) p →
    After s (n + 1) (.running i) p

/-- How an invocation ends if no further instruction is executed: a step has ended it, or it is past
the end of the code. -/
def end? : Progress σ → Option (Except Failure Value × World σ)
  | running i => if i.next? = none then some (.error i.endOfCode, i.world) else none
  | ended result w => some (result, w)

/-- Goes on for at most `fuel` instructions. -/
def run (s : Surroundings σ) (budget fuel : Nat) : Progress σ → Except Failure Value × World σ
  | running i => i.run s budget fuel
  | ended result w => (result, w)

theorem end?_eq_none_iff : p.end? = none ↔ ∃ i x, p = .running i ∧ i.next? = some x := by
  cases p with
  | running i => cases hnext : i.next? <;> simp [end?, hnext]
  | ended => simp [end?]

/-- An invocation ends within so many instructions or can go on after them. -/
theorem exists_after (s : Surroundings σ) (n : Nat) (p : Progress σ) :
    (∃ k q result, k ≤ n ∧ After s k p q ∧ q.end? = some result) ∨
      ∃ q, After s n p q ∧ q.end? = none := by
  induction n generalizing p with
  | zero =>
    cases hend : p.end? with
    | some result => exact .inl ⟨0, p, result, Nat.le_refl 0, .refl p, hend⟩
    | none => exact .inr ⟨p, .refl p, hend⟩
  | succ n ih =>
    cases hend : p.end? with
    | some result => exact .inl ⟨0, p, result, Nat.zero_le _, .refl p, hend⟩
    | none =>
      obtain ⟨i, x, rfl, hnext⟩ := end?_eq_none_iff.mp hend
      rcases ih (i.step s x) with ⟨k, q, result, hk, hafter, hq⟩ | ⟨q, hafter, hq⟩
      · exact .inl ⟨k + 1, q, result, Nat.succ_le_succ hk, .head hnext hafter, hq⟩
      · exact .inr ⟨q, .head hnext hafter, hq⟩

/-- A run follows the course of the invocation. -/
theorem After.run_eq {k : Nat} (h : After s k p q) (budget fuel : Nat) :
    p.run s budget (k + fuel) = q.run s budget fuel := by
  induction h with
  | refl => rw [Nat.zero_add]
  | @head n i x p hnext _ ih =>
    rw [Nat.add_right_comm, ← ih, run, Invocation.run]
    simp only [hnext]
    cases i.step s x <;> rfl

theorem run_of_end? {result : Except Failure Value × World σ} (h : p.end? = some result)
    (budget fuel : Nat) : p.run s budget fuel = result := by
  cases p with
  | running i =>
    simp only [end?] at h
    split at h
    · next hnext =>
      cases h
      rw [run, Invocation.run.eq_def]
      simp only [hnext]
    · cases h
  | ended => exact Option.some.inj h

theorem run_zero (h : p.end? = none) (budget : Nat) :
    p.run s budget 0 = (.error (.error (.machine (.instructionLimit budget))), p.world) := by
  obtain ⟨i, x, rfl, hnext⟩ := end?_eq_none_iff.mp h
  simp only [run, Invocation.run, hnext]
  rfl

/-- A run that has enough instructions ends as the course of the invocation ends. -/
theorem After.run_eq_end {k : Nat} {result : Except Failure Value × World σ} (h : After s k p q)
    (hq : q.end? = some result) {fuel : Nat} (hk : k ≤ fuel) (budget : Nat) :
    p.run s budget fuel = result := by
  obtain ⟨rest, rfl⟩ := Nat.exists_eq_add_of_le hk
  rw [h.run_eq, run_of_end? hq]

/-- A run that has too few instructions stops where the course of the invocation is then. -/
theorem After.run_eq_limit {fuel : Nat} (h : After s fuel p q) (hq : q.end? = none)
    (budget : Nat) :
    p.run s budget fuel = (.error (.error (.machine (.instructionLimit budget))), q.world) := by
  rw [← run_zero hq budget, ← h.run_eq, Nat.add_zero]

end Progress

/-- How an invocation begins that enters a method. -/
def Entry.begin {σ : Type} : Entry σ → Progress σ
  | frame callee w => Invocation.enter callee .empty w
  | result v w => .ended (.ok v) w
  | fail e w => .ended (.error e) w

/-- How a call from outside begins. -/
def World.begin {σ : Type} (w : World σ) (s : Surroundings σ) (target : Target) (name : String)
    (type : MethodTy) (args : List Value) : Progress σ :=
  (w.enter s target name type args).begin

/-! ### Other limits -/

namespace Progress

variable {σ : Type} {s : Surroundings σ} {p q : Progress σ} {l : Limits}

/-- The same progress under other limits. -/
def withLimits (l : Limits) : Progress σ → Progress σ
  | running i => running { i with world := i.world.withLimits l }
  | ended result w => ended result (w.withLimits l)

/-- No call was refused that other limits might admit, and they admit all others: the limit on calls
is the same, or it is higher and was not hit. -/
def Admits (l : Limits) (p : Progress σ) : Prop :=
  p.world.limits.maxCallDepth ≤ l.maxCallDepth ∧
    (p.world.limits.maxCallDepth < l.maxCallDepth → ∀ w,
      p ≠ .ended (.error (.error (.machine (.callDepthExceeded p.world.limits.maxCallDepth)))) w)

theorem world_withLimits (p : Progress σ) (l : Limits) :
    (p.withLimits l).world = p.world.withLimits l := by
  cases p <;> rfl

theorem end?_withLimits (p : Progress σ) (l : Limits) :
    (p.withLimits l).end? = p.end?.map fun (result, w) ↦ (result, w.withLimits l) := by
  cases p with
  | running i =>
    rw [withLimits, end?, end?,
      show ({ i with world := i.world.withLimits l } : Invocation σ).next? = i.next? from rfl]
    split <;> rfl
  | ended => rfl

/-- An end other than a refused call is admitted under every higher limit on calls. -/
theorem admits_of_end? {result : Except Failure Value} {w : World σ}
    (hend : p.end? = some (result, w)) (hle : p.world.limits.maxCallDepth ≤ l.maxCallDepth)
    (hresult : p.world.limits.maxCallDepth < l.maxCallDepth → result ≠
      .error (.error (.machine (.callDepthExceeded p.world.limits.maxCallDepth)))) :
    p.Admits l := by
  refine ⟨hle, fun hlt w' hp ↦ hresult hlt ?_⟩
  rw [hp] at hend
  exact (congrArg Prod.fst (Option.some.inj hend)).symm

/-- An invocation that runs has not been refused a call. -/
theorem admits_running {i : Invocation σ}
    (h : i.world.limits.maxCallDepth ≤ l.maxCallDepth) : (running i).Admits l :=
  ⟨h, fun _ _ ↦ nofun⟩

end Progress

namespace Invocation

variable {σ : Type} {s : Surroundings σ} {l : Limits}

theorem enter_of_le {callee : Frame} {callers : CallStack} {w : World σ}
    (h : w.limits.maxCallDepth ≤ callers.size) : enter callee callers w =
      .ended (.error (.error (.machine (.callDepthExceeded w.limits.maxCallDepth)))) w :=
  if_pos h

theorem enter_of_lt {callee : Frame} {callers : CallStack} {w : World σ}
    (h : callers.size < w.limits.maxCallDepth) :
    enter callee callers w = .running ⟨callee, callers, w⟩ :=
  if_neg (Nat.not_le_of_lt h)

theorem enter_withLimits {callee : Frame} {callers : CallStack} {w : World σ}
    (h : (enter callee callers w).Admits l) :
    enter callee callers (w.withLimits l) = (enter callee callers w).withLimits l := by
  rcases Nat.lt_or_ge callers.size w.limits.maxCallDepth with hfree | hfull
  · rw [enter_of_lt hfree] at h ⊢
    exact enter_of_lt (Nat.lt_of_lt_of_le hfree h.1)
  · rw [enter_of_le hfull] at h ⊢
    -- The call was refused, so that no other limit than the same one admits what came of it.
    have heq : w.limits.maxCallDepth = l.maxCallDepth :=
      Nat.le_antisymm h.1 (Nat.le_of_not_lt fun hlt ↦ h.2 hlt w rfl)
    have hfull' : (w.withLimits l).limits.maxCallDepth ≤ callers.size := heq ▸ hfull
    rw [enter_of_le hfull', World.limits_withLimits, ← heq]
    rfl

theorem settle_withLimits {returnsValue : Bool} {callers : CallStack} {o : Outcome σ}
    (h : (settle returnsValue callers o).Admits l) :
    settle returnsValue callers (o.withLimits l) =
      (settle returnsValue callers o).withLimits l := by
  cases o with
  | next | fail => rfl
  | call => exact enter_withLimits h
  | leave v w =>
    simp only [Outcome.withLimits, settle, leave]
    split <;> rfl

/-- A step is the same one under limits that admit it. -/
theorem step_withLimits (hs : s.IgnoresLimits) {i : Invocation σ} {x : Instruction}
    (h : (i.step s x).Admits l) :
    ({ i with world := i.world.withLimits l } : Invocation σ).step s x =
      (i.step s x).withLimits l := by
  simp only [step, Frame.execute_withLimits hs]
  exact settle_withLimits h

/-- No step changes the limits. -/
theorem limits_step (hs : s.IgnoresLimits) (i : Invocation σ) (x : Instruction) :
    (i.step s x).world.limits = i.world.limits := by
  obtain ⟨f, callers, w⟩ := i
  have hkept := Frame.execute_withLimits hs { f with pc := f.pc + 1 } w w.limits x
  rw [World.withLimits_limits] at hkept
  rw [step, world_settle, hkept]
  cases Frame.execute s { f with pc := f.pc + 1 } w x <;> rfl

end Invocation

namespace Progress

variable {σ : Type} {s : Surroundings σ} {p q : Progress σ} {l : Limits} {k : Nat}

theorem After.limits_eq (h : After s k p q) (hs : s.IgnoresLimits) :
    q.world.limits = p.world.limits := by
  induction h with
  | refl => rfl
  | head _ _ ih => rw [ih, Invocation.limits_step hs, world]

/-- What limits admit at last they have admitted all along. -/
theorem After.admits (h : After s k p q) (hs : s.IgnoresLimits) (hq : q.Admits l) : p.Admits l := by
  have hlimits := h.limits_eq hs
  cases h with
  | refl => exact hq
  | head => exact admits_running (hlimits ▸ hq.1)

/-- Under limits that admit it, an invocation takes the same course. -/
theorem After.withLimits (h : After s k p q) (hs : s.IgnoresLimits) (hq : q.Admits l) :
    After s k (p.withLimits l) (q.withLimits l) := by
  induction h with
  | refl p => exact .refl _
  | head hnext hrest ih =>
    refine .head hnext ?_
    rw [Invocation.step_withLimits hs (hrest.admits hs hq)]
    exact ih hq

/-- Under limits that admit what it comes to, an invocation runs the same. -/
theorem run_withLimits (hs : s.IgnoresLimits) {budget fuel : Nat}
    (hle : p.world.limits.maxCallDepth ≤ l.maxCallDepth)
    (hspared : p.world.limits.maxCallDepth < l.maxCallDepth → (p.run s budget fuel).1 ≠
      .error (.error (.machine (.callDepthExceeded p.world.limits.maxCallDepth)))) :
    p.Admits l ∧ (p.withLimits l).run s budget fuel =
      ((p.run s budget fuel).1, (p.run s budget fuel).2.withLimits l) := by
  rcases exists_after s fuel p with ⟨k, q, ⟨result, w⟩, hk, hafter, hend⟩ | ⟨q, hafter, hend⟩
  · rw [hafter.run_eq_end hend hk] at hspared ⊢
    have hlimits := hafter.limits_eq hs
    have hq : q.Admits l := by
      rw [← hlimits] at hle hspared
      exact admits_of_end? hend hle hspared
    refine ⟨hafter.admits hs hq, (hafter.withLimits hs hq).run_eq_end ?_ hk budget⟩
    rw [end?_withLimits, hend]
    rfl
  · rw [hafter.run_eq_limit hend]
    have hlimits := hafter.limits_eq hs
    have hq : q.Admits l := by
      rw [← hlimits] at hle
      obtain ⟨i, x, rfl, -⟩ := end?_eq_none_iff.mp hend
      exact admits_running hle
    rw [← world_withLimits]
    refine ⟨hafter.admits hs hq, (hafter.withLimits hs hq).run_eq_limit ?_ budget⟩
    rw [end?_withLimits, hend]
    rfl

/-- There are no more active calls than the limit allows. -/
def Within : Progress σ → Prop
  | running i => i.callers.size < i.world.limits.maxCallDepth
  | ended _ _ => True

end Progress

namespace Invocation

variable {σ : Type} {s : Surroundings σ}

theorem within_enter (callee : Frame) (callers : CallStack) (w : World σ) :
    (enter callee callers w).Within := by
  rcases Nat.lt_or_ge callers.size w.limits.maxCallDepth with hfree | hfull
  · rw [enter_of_lt hfree]
    exact hfree
  · rw [enter_of_le hfull]
    trivial

theorem within_settle {returnsValue : Bool} {callers : CallStack} {o : Outcome σ}
    (h : callers.size < o.world.limits.maxCallDepth) : (settle returnsValue callers o).Within := by
  cases o with
  | next => exact h
  | call caller callee w => exact within_enter _ _ _
  | leave v w =>
    simp only [settle, leave]
    split
    · trivial
    · next caller rest hpop =>
      have hframes := congrArg List.length (CallStack.frames_of_pop? hpop)
      rw [List.length_cons, ← callers.size_eq, ← rest.size_eq] at hframes
      simp only [Outcome.world] at h
      simp only [Progress.Within]
      omega
  | fail => trivial

/-- No step begins a call too many. -/
theorem within_step (hs : s.IgnoresLimits) {i : Invocation σ} (h : (Progress.running i).Within)
    (x : Instruction) : (i.step s x).Within := by
  have hlimits := limits_step hs i x
  obtain ⟨f, callers, w⟩ := i
  rw [step, world_settle] at hlimits
  rw [step]
  refine within_settle ?_
  rw [hlimits]
  exact h

end Invocation

/-- An invocation stays within the limit on calls. -/
theorem Progress.After.within {σ : Type} {s : Surroundings σ} {p q : Progress σ} {k : Nat}
    (h : After s k p q) (hs : s.IgnoresLimits) (hp : p.Within) : q.Within := by
  induction h with
  | refl => exact hp
  | head _ _ ih => exact ih (Invocation.within_step hs hp _)

/-! ### Calls from outside -/

theorem Limits.fuel_of_pos {N D : Nat} (hN : 1 ≤ N) : Limits.fuel ⟨N, D⟩ = N :=
  if_neg (Nat.ne_of_gt hN)

namespace Entry

variable {σ : Type} {s : Surroundings σ}

/-- Running what was entered goes on from how the invocation begins. -/
theorem run_eq_begin (entry : Entry σ) :
    entry.run s = entry.begin.run s entry.world.limits.maxInstructions entry.world.limits.fuel := by
  cases entry with
  | frame callee w =>
    simp only [run, begin]
    cases Invocation.enter callee .empty w <;> rfl
  | result | fail => rfl

theorem begin_withLimits {entry : Entry σ} {l : Limits} (h : entry.begin.Admits l) :
    (entry.withLimits l).begin = entry.begin.withLimits l := by
  cases entry with
  | frame => exact Invocation.enter_withLimits h
  | result | fail => rfl

theorem within_begin (entry : Entry σ) : entry.begin.Within := by
  cases entry with
  | frame => exact Invocation.within_enter _ _ _
  | result | fail => trivial

theorem world_begin (entry : Entry σ) : entry.begin.world = entry.world := by
  cases entry with
  | frame callee w =>
    simp only [begin, Invocation.enter]
    split <;> rfl
  | result | fail => rfl

end Entry

namespace World

variable {σ : Type} {s : Surroundings σ}

theorem enter_withLimits (hs : s.IgnoresLimits) (w : World σ) (target : Target) (name : String)
    (type : MethodTy) (args : List Value) (l : Limits) :
    (w.withLimits l).enter s target name type args =
      (w.enter s target name type args).withLimits l := by
  cases target with
  | static cls => exact Entry.lookup_withLimits hs _ _ _ _ _ _ _
  | virtual receiver => exact Entry.lookup_withLimits hs _ _ _ _ _ _ _

/-- A call begins under the limits of its world. -/
theorem limits_begin (hs : s.IgnoresLimits) (w : World σ) (target : Target) (name : String)
    (type : MethodTy) (args : List Value) :
    (w.begin s target name type args).world.limits = w.limits := by
  have hkept := enter_withLimits hs w target name type args w.limits
  rw [withLimits_limits] at hkept
  rw [begin, Entry.world_begin, hkept]
  cases w.enter s target name type args <;> rfl

theorem begin_withLimits (hs : s.IgnoresLimits) {w : World σ} {target : Target} {name : String}
    {type : MethodTy} {args : List Value} {l : Limits}
    (h : (w.begin s target name type args).Admits l) :
    (w.withLimits l).begin s target name type args =
      (w.begin s target name type args).withLimits l := by
  rw [begin, enter_withLimits hs]
  exact Entry.begin_withLimits h

/-- A call from outside is the run of how it begins, with the budget of the machine. -/
theorem invoke_eq_begin (hs : s.IgnoresLimits) (w : World σ) (target : Target) (name : String)
    (type : MethodTy) (args : List Value) : w.invoke s target name type args =
      (w.begin s target name type args).run s w.limits.maxInstructions w.limits.fuel := by
  rw [invoke_eq_run, Entry.run_eq_begin, ← Entry.world_begin, ← begin, limits_begin hs]

section

variable (hs : s.IgnoresLimits) (w : World σ) (target : Target) (name : String) (type : MethodTy)
  (args : List Value)
include hs

/-- A call runs the same under limits that admit what it comes to. -/
theorem run_begin_withLimits {l : Limits} {budget fuel : Nat}
    (hle : w.limits.maxCallDepth ≤ l.maxCallDepth)
    (hspared : w.limits.maxCallDepth < l.maxCallDepth →
      ((w.begin s target name type args).run s budget fuel).1 ≠
        .error (.error (.machine (.callDepthExceeded w.limits.maxCallDepth)))) :
    ((w.withLimits l).begin s target name type args).run s budget fuel =
      (((w.begin s target name type args).run s budget fuel).1,
        ((w.begin s target name type args).run s budget fuel).2.withLimits l) := by
  rw [← limits_begin hs w target name type args] at hle hspared
  obtain ⟨hadmits, hrun⟩ := Progress.run_withLimits hs hle hspared
  rw [begin_withLimits hs hadmits, hrun]

/-- A call with a budget is the call without one, followed for as many instructions. -/
theorem invoke_budget {N : Nat} (hN : 1 ≤ N) (D : Nat) :
    (w.withLimits ⟨N, D⟩).invoke s target name type args =
      ((((w.withLimits ⟨0, D⟩).begin s target name type args).run s N N).1,
        (((w.withLimits ⟨0, D⟩).begin s target name type args).run s N N).2.withLimits ⟨N, D⟩) := by
  rw [invoke_eq_begin hs, limits_withLimits, Limits.fuel_of_pos hN]
  exact run_begin_withLimits hs (w.withLimits ⟨0, D⟩) target name type args (Nat.le_refl D)
    fun hlt ↦ absurd hlt (Nat.lt_irrefl D)

/-- Without a budget a call ends as its course does, if a counter of 64 bits can count the
instructions. -/
theorem invoke_unlimited {D k : Nat} (hk : k < UInt64.size) {q : Progress σ}
    {result : Except Failure Value × World σ}
    (h : Progress.After s k ((w.withLimits ⟨0, D⟩).begin s target name type args) q)
    (hq : q.end? = some result) :
    (w.withLimits ⟨0, D⟩).invoke s target name type args = result := by
  rw [invoke_eq_begin hs]
  exact h.run_eq_end hq (Nat.le_sub_one_of_lt hk) 0

/-- A limit on calls that is not hit changes nothing. -/
theorem invoke_depth {B D D' : Nat} (hD : D ≤ D')
    (h : ((w.withLimits ⟨B, D⟩).invoke s target name type args).1 ≠
      .error (.error (.machine (.callDepthExceeded D)))) :
    (w.withLimits ⟨B, D'⟩).invoke s target name type args =
      (((w.withLimits ⟨B, D⟩).invoke s target name type args).1,
        ((w.withLimits ⟨B, D⟩).invoke s target name type args).2.withLimits ⟨B, D'⟩) := by
  rw [invoke_eq_begin hs] at h
  rw [invoke_eq_begin hs, invoke_eq_begin hs]
  exact run_begin_withLimits hs (w.withLimits ⟨B, D⟩) target name type args hD fun _ ↦ h

/-- No more calls are ever active than the limit allows. -/
theorem length_frames_le {B D k : Nat} {i : Invocation σ}
    (h : Progress.After s k ((w.withLimits ⟨B, D⟩).begin s target name type args) (.running i)) :
    (i.current :: i.callers.frames).length ≤ D := by
  have hlimits := (h.limits_eq hs).trans (limits_begin hs _ target name type args)
  have hwithin : i.callers.size < i.world.limits.maxCallDepth :=
    h.within hs (Entry.within_begin _)
  rw [show i.world.limits = ⟨B, D⟩ from hlimits, i.callers.size_eq] at hwithin
  exact hwithin

/-- Limits only truncate. With a budget of `N` instructions a call ends after at most `N` of them.
If the call without a budget ends after at most `N` instructions, the budget changes nothing;
otherwise it leaves the call where it is after `N`. A limit on calls that is not hit may be raised
without a change, and no more calls are ever active than it allows. -/
theorem limits_truncate :
    (∀ N D, 1 ≤ N →
      (∃ k q, k ≤ N ∧ Progress.After s k ((w.withLimits ⟨N, D⟩).begin s target name type args) q ∧
        (q.end? = some ((w.withLimits ⟨N, D⟩).invoke s target name type args) ∨
          k = N ∧ q.end? = none ∧ (w.withLimits ⟨N, D⟩).invoke s target name type args =
            (.error (.error (.machine (.instructionLimit N))), q.world))) ∧
      (∀ k q result w', k ≤ N →
        Progress.After s k ((w.withLimits ⟨0, D⟩).begin s target name type args) q →
        q.end? = some (result, w') →
        (w.withLimits ⟨N, D⟩).invoke s target name type args = (result, w'.withLimits ⟨N, D⟩) ∧
          (k < UInt64.size →
            (w.withLimits ⟨0, D⟩).invoke s target name type args = (result, w'))) ∧
      ((∀ k q, k ≤ N →
          Progress.After s k ((w.withLimits ⟨0, D⟩).begin s target name type args) q →
          q.end? = none) →
        (∃ q, Progress.After s N ((w.withLimits ⟨0, D⟩).begin s target name type args) q) ∧
          ∀ q, Progress.After s N ((w.withLimits ⟨0, D⟩).begin s target name type args) q →
            (w.withLimits ⟨N, D⟩).invoke s target name type args =
              (.error (.error (.machine (.instructionLimit N))), q.world.withLimits ⟨N, D⟩))) ∧
    (∀ B D D', D ≤ D' →
      ((w.withLimits ⟨B, D⟩).invoke s target name type args).1 ≠
        .error (.error (.machine (.callDepthExceeded D))) →
      (w.withLimits ⟨B, D'⟩).invoke s target name type args =
        (((w.withLimits ⟨B, D⟩).invoke s target name type args).1,
          ((w.withLimits ⟨B, D⟩).invoke s target name type args).2.withLimits ⟨B, D'⟩)) ∧
    ∀ B D k i,
      Progress.After s k ((w.withLimits ⟨B, D⟩).begin s target name type args) (.running i) →
      (i.current :: i.callers.frames).length ≤ D := by
  refine ⟨fun N D hN ↦ ⟨?_, ?_, ?_⟩, ?_, ?_⟩
  · rw [invoke_eq_begin hs, limits_withLimits, Limits.fuel_of_pos hN]
    rcases Progress.exists_after s N ((w.withLimits ⟨N, D⟩).begin s target name type args) with
      ⟨k, q, result, hk, hafter, hq⟩ | ⟨q, hafter, hq⟩
    · refine ⟨k, q, hk, hafter, .inl ?_⟩
      rw [hafter.run_eq_end hq hk, hq]
    · exact ⟨N, q, Nat.le_refl N, hafter, .inr ⟨rfl, hq, hafter.run_eq_limit hq N⟩⟩
  · intro k q result w' hk hafter hq
    refine ⟨?_, fun hsize ↦ invoke_unlimited hs w target name type args hsize hafter hq⟩
    rw [invoke_budget hs _ _ _ _ _ hN, hafter.run_eq_end hq hk]
  · intro hnone
    constructor
    · rcases Progress.exists_after s N ((w.withLimits ⟨0, D⟩).begin s target name type args) with
        ⟨k, q, result, hk, hafter, hq⟩ | ⟨q, hafter, -⟩
      · rw [hnone k q hk hafter] at hq
        cases hq
      · exact ⟨q, hafter⟩
    · intro q hafter
      rw [invoke_budget hs _ _ _ _ _ hN, hafter.run_eq_limit (hnone N q (Nat.le_refl N) hafter)]
  · exact fun B D D' hD h ↦ invoke_depth hs w target name type args hD h
  · exact fun B D k i h ↦ length_frames_le hs w target name type args h

end

/-- A class whose method "main" calls its method "half", which calls a native. -/
def halving : ClassDecl where
  flags := 0
  name := "c.H"
  superName := none
  fields := []
  methods := [
    ⟨Flag.static, "main", ⟨[], .prim .int⟩, some ⟨0, 1,
      [.invokeStatic ⟨"c.H", "half", ⟨[], .prim .int⟩⟩, .retValue]⟩⟩,
    ⟨Flag.static, "half", ⟨[], .prim .int⟩, some ⟨0, 1,
      [.callNative ⟨"tally", ⟨[], .void⟩⟩, .const (.int 7), .retValue]⟩⟩]

/-- Surroundings in which the native "tally" counts its calls. -/
def tallying : Surroundings Nat :=
  ⟨⟨#[]⟩, fun name ↦ if name = "tally" then some fun _ w ↦
    (.value .void, { w with host := w.host + 1 })
  else none, fun _ ↦ 0⟩

theorem ignoresLimits_tallying : tallying.IgnoresLimits := by
  intro name n hn args w l
  simp only [tallying] at hn
  split at hn
  · cases hn
    rfl
  · cases hn

/-- A world with the class. -/
def halvingWorld : World Nat :=
  ⟨((Machine.new .standard []).addClass (.link 1 halving [])).1, 0⟩

/-- What calling "main" comes to under some limits. -/
def halvingResult (l : Limits) : Except Failure Value × World Nat :=
  (halvingWorld.withLimits l).invoke tallying (.static ⟨0⟩) "main" ⟨[], .prim .int⟩ []

/-- How calling "main" begins under some limits. -/
def halvingBegin (l : Limits) : Progress Nat :=
  (halvingWorld.withLimits l).begin tallying (.static ⟨0⟩) "main" ⟨[], .prim .int⟩ []

/-- Five instructions and two calls are what "main" needs. A budget of four leaves it after four of
them, when the native was called; a limit of nine calls changes nothing, and never are more than two
active. -/
theorem halvingWorld_limits_truncate :
    tallying.IgnoresLimits ∧ (halvingResult ⟨5, 2⟩).1 = .ok (.int 7) ∧
      (halvingResult ⟨5, 1⟩).1 = .error (.error (.machine (.callDepthExceeded 1))) ∧
      (∃ q, Progress.After tallying 4 (halvingBegin ⟨0, 2⟩) q ∧ q.world.host = 1 ∧
        halvingResult ⟨4, 2⟩ = (.error (.error (.machine (.instructionLimit 4))),
          q.world.withLimits ⟨4, 2⟩)) ∧
      halvingResult ⟨5, 9⟩ = (.ok (.int 7), (halvingResult ⟨5, 2⟩).2.withLimits ⟨5, 9⟩) ∧
      ∀ k i, Progress.After tallying k (halvingBegin ⟨5, 2⟩) (.running i) →
        (i.current :: i.callers.frames).length ≤ 2 := by
  obtain ⟨hbudget, hdepth, hframes⟩ := limits_truncate ignoresLimits_tallying halvingWorld
    (.static ⟨0⟩) "main" ⟨[], .prim .int⟩ []
  obtain ⟨-, hsuffices, htruncates⟩ := hbudget 4 2 (by decide)
  have hall : (halvingResult ⟨5, 2⟩).1 = .ok (.int 7) := by cbv
  have hfour : (halvingResult ⟨4, 2⟩).1 = .error (.error (.machine (.instructionLimit 4))) := by cbv
  have hhost : (halvingResult ⟨4, 2⟩).2.host = 1 := by cbv
  have hunlimited : (halvingResult ⟨0, 2⟩).1 = .ok (.int 7) := by cbv
  -- Were the call to end within four instructions, it would end alike with and without a budget.
  have hnone : ∀ k q, k ≤ 4 → Progress.After tallying k (halvingBegin ⟨0, 2⟩) q →
      q.end? = none := by
    intro k q hk hafter
    cases hend : q.end? with
    | none => rfl
    | some end' =>
      obtain ⟨result, w'⟩ := end'
      obtain ⟨hcut, hwhole⟩ := hsuffices k q result w' hk hafter hend
      replace hcut : halvingResult ⟨4, 2⟩ = (result, w'.withLimits ⟨4, 2⟩) := hcut
      replace hwhole : halvingResult ⟨0, 2⟩ = (result, w') :=
        hwhole (Nat.lt_of_le_of_lt hk (by decide))
      rw [hcut] at hfour
      rw [hwhole] at hunlimited
      cases hfour.symm.trans hunlimited
  obtain ⟨⟨q, hq⟩, hcut⟩ := htruncates hnone
  replace hcut : halvingResult ⟨4, 2⟩ =
    (.error (.error (.machine (.instructionLimit 4))), q.world.withLimits ⟨4, 2⟩) := hcut q hq
  have hraised : (halvingResult ⟨5, 2⟩).1 ≠ .error (.error (.machine (.callDepthExceeded 2))) →
    halvingResult ⟨5, 9⟩ = ((halvingResult ⟨5, 2⟩).1,
      (halvingResult ⟨5, 2⟩).2.withLimits ⟨5, 9⟩) := hdepth 5 2 9 (by decide)
  rw [hall] at hraised
  refine ⟨ignoresLimits_tallying, hall, by cbv, ⟨q, hq, ?_, hcut⟩, hraised ?_, hframes 5 2⟩
  · rw [hcut] at hhost
    exact hhost
  · intro hlimit
    cases hlimit

end World

end Hotswap
