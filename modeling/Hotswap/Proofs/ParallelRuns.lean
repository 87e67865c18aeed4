import Hotswap.Proofs.Parallel

/-!
# Whole runs side by side

Two invocations that run side by side have the same run if they come past the end of their codes
together. Since steps are determined, whatever one of them goes through, the other one has gone
through beside it.
-/

namespace Hotswap

namespace Invocation

variable {σ : Type} {s : Surroundings σ} {R : Frame → Frame → Prop} {base : CallStack}

/-- Where an invocation is past the end of its code, the other one is so too and fails with the same
error. -/
def EndsWith (i j : Invocation σ) : Prop :=
  i.next? = none → j.next? = none ∧ j.endOfCode = i.endOfCode

theorem Beside.world_eq {i j : Invocation σ} (h : i.Beside R base j) : j.world = i.world := by
  cases h <;> rfl

/-- The frames below the related ones are still there. -/
theorem Beside.size_le {i j : Invocation σ} (h : i.Beside R base j) :
    base.size ≤ i.callers.size := by
  cases h with
  | runs => exact Nat.le_refl _
  | waits current above w hR =>
    simp only [CallStack.size_pushAll, CallStack.push]
    omega

/-- Beside an invocation that runs the second frame above `base`, the first one runs as well. -/
theorem Beside.of_runs_right {g : Frame} {w : World σ} {i : Invocation σ}
    (h : i.Beside R base ⟨g, base, w⟩) : ∃ f, i = ⟨f, base, w⟩ ∧ R f g := by
  generalize hj : (⟨g, base, w⟩ : Invocation σ) = j at h
  cases h with
  | runs w h =>
    cases hj
    exact ⟨_, rfl, h⟩
  | waits current above w h =>
    have hsize := congrArg (·.callers.size) hj
    simp only [CallStack.size_pushAll, CallStack.push] at hsize
    omega

/-- A run goes on from where its first steps have led. -/
theorem Stays.run_eq {size n : Nat} {i j : Invocation σ} (h : Stays s size n i j)
    (budget fuel : Nat) : i.run s budget (n + fuel) = j.run s budget fuel := by
  induction h with
  | refl i => rw [Nat.zero_add]
  | @head n i j k x hnext hstep _ _ ih =>
    rw [Nat.add_right_comm, ← ih, run]
    simp only [hnext, hstep]

end Invocation

namespace Frame.Alongside

variable {σ : Type} {s : Surroundings σ} {R : Frame → Frame → Prop} {base : CallStack}

open Invocation

/-- Every instruction has a counterpart that comes to the same. -/
theorem step_beside (h : Alongside s R fun _ ↦ True) {i j : Invocation σ} {x : Instruction}
    (hij : i.Beside R base j) (hx : i.next? = some x) :
    ∃ y, j.next? = some y ∧ (i.step s x).Beside R base (j.step s y) := by
  rcases h.beside_step hij hx with hstep | ⟨hno, -⟩
  · exact hstep
  · exact absurd trivial hno

/-- Invocations side by side that come past the end of their codes together have the same run. -/
theorem run_eq (h : Alongside s R fun _ ↦ True) {fuel : Nat} {i j : Invocation σ}
    (hij : i.Beside R base j)
    (hends : ∀ m i' j', m ≤ fuel → Stays s base.size m i i' → i'.Beside R base j' →
      i'.EndsWith j') (budget : Nat) : j.run s budget fuel = i.run s budget fuel := by
  induction fuel generalizing i j with
  | zero =>
    unfold run
    cases hx : i.next? with
    | none =>
      obtain ⟨hnone, herror⟩ := hends 0 i j (Nat.le_refl _) (.refl i) hij hx
      simp only [hnone, herror, hij.world_eq]
    | some x =>
      obtain ⟨y, hy, -⟩ := h.step_beside hij hx
      simp only [hy, hij.world_eq]
  | succ fuel ih =>
    unfold run
    cases hx : i.next? with
    | none =>
      obtain ⟨hnone, herror⟩ := hends 0 i j (Nat.zero_le _) (.refl i) hij hx
      simp only [hnone, herror, hij.world_eq]
    | some x =>
      obtain ⟨y, hy, hprogress⟩ := h.step_beside hij hx
      simp only [hy]
      generalize hstep : i.step s x = p at hprogress
      generalize j.step s y = p' at hprogress
      cases hprogress with
      | running hij' =>
        refine ih hij' fun m i' j' hm hstays ↦ ?_
        exact hends (m + 1) i' j' (Nat.succ_le_succ hm) (.head hx hstep hij'.size_le hstays)
      | left => rfl
      | ended => rfl

/-- While the second invocation stays in the call of its frame, the first one has done the same. -/
theorem stays_back (h : Alongside s R fun _ ↦ True) {n : Nat} {i j j' : Invocation σ}
    (hij : i.Beside R base j)
    (hends : ∀ m i' j', m ≤ n → Stays s base.size m i i' → i'.Beside R base j' → i'.EndsWith j')
    (hj : Stays s base.size n j j') :
    ∃ i', Stays s base.size n i i' ∧ i'.Beside R base j' := by
  induction hj generalizing i with
  | refl j => exact ⟨i, .refl i, hij⟩
  | @head n j k j' y hnext hstep hbase _ ih =>
    cases hx : i.next? with
    | none =>
      obtain ⟨hnone, -⟩ := hends 0 i j (Nat.zero_le _) (.refl i) hij hx
      rw [hnext] at hnone
      cases hnone
    | some x =>
      obtain ⟨y', hy', hprogress⟩ := h.step_beside hij hx
      obtain rfl : y = y' := Option.some.inj (hnext.symm.trans hy')
      rw [hstep] at hprogress
      generalize hstep' : i.step s x = p at hprogress
      cases hprogress with
      | running hij' =>
        obtain ⟨i', hi', hbeside⟩ := ih hij' fun m i' j' hm hstays ↦
          hends (m + 1) i' j' (Nat.succ_le_succ hm) (.head hx hstep' hij'.size_le hstays)
        exact ⟨i', .head hx hstep' hij'.size_le hi', hbeside⟩
      | left _ hlt => omega

end Frame.Alongside

end Hotswap
