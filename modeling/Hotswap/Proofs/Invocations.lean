import Hotswap.Machine.Run

/-!
# Steps of invocations

The invocations that one goes through, step by step, and how it ends. A run follows the steps until
one of them ends it, or until it has used up its instructions.
-/

namespace Hotswap

/-- What is popped stood in front of the rest. -/
theorem CallStack.frames_of_pop? {c rest : CallStack} {f : Frame} (h : c.pop? = some (f, rest)) :
    c.frames = f :: rest.frames := by
  obtain ⟨frames, n, hn⟩ := c
  cases frames with
  | nil => cases h
  | cons g frames =>
    cases h
    rfl

namespace Invocation

variable {σ : Type} {s : Surroundings σ}

/-- An invocation comes to another one in so many steps. -/
inductive Steps (s : Surroundings σ) : Nat → Invocation σ → Invocation σ → Prop where
  | refl (i : Invocation σ) : Steps s 0 i i
  | head {n : Nat} {i j k : Invocation σ} {instruction : Instruction} :
    i.next? = some instruction → i.step s instruction = .running j → Steps s n j k →
    Steps s (n + 1) i k

/-- The next step of an invocation ends it. -/
inductive Finishes (s : Surroundings σ) (i : Invocation σ) :
    Except Failure Value → World σ → Prop where
  | pastEnd : i.next? = none → Finishes s i (.error i.endOfCode) i.world
  | ended {instruction : Instruction} {result : Except Failure Value} {w : World σ} :
    i.next? = some instruction → i.step s instruction = .ended result w → Finishes s i result w

/-- What a step preserves is preserved by steps. -/
theorem Steps.preserves {P : Invocation σ → Prop}
    (hP : ∀ i instruction j, P i → i.next? = some instruction → i.step s instruction = .running j →
      P j) {n : Nat} {i j : Invocation σ} (h : Steps s n i j) (hi : P i) : P j := by
  induction h with
  | refl => exact hi
  | head hnext hstep _ ih => exact ih (hP _ _ _ hi hnext hstep)

/-- A run takes steps until the next one ends it, or until no instruction is left to it. -/
theorem steps_of_run {budget fuel : Nat} {i : Invocation σ} {result : Except Failure Value}
    {w : World σ} (h : i.run s budget fuel = (result, w)) :
    (∃ n j, n ≤ fuel ∧ Steps s n i j ∧ j.Finishes s result w) ∨
      ∃ j, Steps s fuel i j ∧ j.next?.isSome = true ∧ w = j.world ∧
        result = .error (.error (.machine (.instructionLimit budget))) := by
  induction fuel generalizing i with
  | zero =>
    unfold run at h
    split at h
    · next hnone =>
      cases h
      exact .inl ⟨0, i, Nat.le_refl 0, .refl i, .pastEnd hnone⟩
    · next hsome =>
      cases h
      exact .inr ⟨i, .refl i, by rw [hsome, Option.isSome_some], rfl, rfl⟩
  | succ fuel ih =>
    unfold run at h
    split at h
    · next hnone =>
      cases h
      exact .inl ⟨0, i, Nat.zero_le _, .refl i, .pastEnd hnone⟩
    · next hsome =>
      dsimp only at h
      split at h
      · next j hstep =>
        rcases ih h with ⟨n, k, hn, hsteps, hends⟩ | ⟨k, hsteps, hrest⟩
        · exact .inl ⟨n + 1, k, Nat.succ_le_succ hn, .head hsome hstep hsteps, hends⟩
        · exact .inr ⟨k, .head hsome hstep hsteps, hrest⟩
      · next hstep =>
        cases h
        exact .inl ⟨0, i, Nat.zero_le _, .refl i, .ended hsome hstep⟩

/-- What steps keep, and hand on to the end of an invocation, holds at the end of a run. -/
theorem run_induction {P : Invocation σ → Prop} {Q : World σ → Prop}
    (hrunning : ∀ i instruction j, P i → i.step s instruction = .running j → P j)
    (hended : ∀ i instruction result w, P i → i.step s instruction = .ended result w → Q w)
    (hworld : ∀ i, P i → Q i.world) {i : Invocation σ} (hi : P i) (budget fuel : Nat) :
    Q (i.run s budget fuel).2 := by
  have hsteps : ∀ n j, Steps s n i j → P j := by
    intro n j h
    exact h.preserves (fun i instruction j hi _ hstep ↦ hrunning i instruction j hi hstep) hi
  cases hrun : i.run s budget fuel with
  | mk result w =>
    rcases steps_of_run hrun with ⟨n, j, -, hj, hends⟩ | ⟨j, hj, -, rfl, -⟩
    · cases hends with
      | pastEnd => exact hworld j (hsteps n j hj)
      | @ended instruction _ _ _ hstep => exact hended j instruction result w (hsteps n j hj) hstep
    · exact hworld j (hsteps fuel j hj)

end Invocation

/-- What holds of the refusal of a first call and of the run of its frame holds of running what was
entered. -/
theorem Entry.run_frame_cases {σ : Type} {s : Surroundings σ} {callee : Frame} {w : World σ}
    {P : Except Failure Value × World σ → Prop} (hrefused : ∀ e, P (.error e, w))
    (hrun : ∀ budget fuel, P (Invocation.run s budget fuel ⟨callee, .empty, w⟩)) :
    P ((Entry.frame callee w).run s) := by
  simp only [run, Invocation.enter]
  split
  · next i hi =>
    split at hi
    · cases hi
    · cases hi
      exact hrun _ _
  · next hi =>
    split at hi
    · cases hi
      exact hrefused _
    · cases hi

end Hotswap
