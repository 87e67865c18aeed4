import Hotswap.Proofs.DepthWalk

/-!
# Which depths the walk can find

Agreeing depths bound the walk from above, as a fixpoint bounds an iteration from below: the walk
never finds a depth that they do not have, so it never meets two depths for one instruction, an
instruction without its operands or a way past the end. It gives a depth to every code that has
agreeing depths, and none beyond their bound.
-/

namespace Hotswap

/-! ### Operands -/

/-- Operands that suit their method pass the check. -/
theorem Instruction.checkOperands_of_suits {i : Instruction} {maxLocals : UInt16}
    {returnsValue : Bool} {length : Nat} (h : i.Suits maxLocals returnsValue length) (pc : Nat) :
    i.checkOperands pc maxLocals returnsValue length = .ok () := by
  cases i with
  | load index =>
    simp only [checkOperands, target?]
    rw [if_neg (UInt16.not_le.mpr (h.load index rfl))]
  | store index =>
    simp only [checkOperands, target?]
    rw [if_neg (UInt16.not_le.mpr (h.store index rfl))]
  | ret => simp [checkOperands, target?, h.ret rfl]
  | retValue => simp [checkOperands, target?, h.retValue rfl]
  | jump t | jumpIf c t =>
    have htarget := h.target t rfl
    simp only [checkOperands, target?]
    rw [if_neg (by omega)]
  | _ => rfl

/-- Code that suits its method passes the check, from whatever index it is counted. -/
theorem checkAllOperands_of_suits {maxLocals : UInt16} {returnsValue : Bool} {length : Nat}
    {code : List Instruction} (h : ∀ i ∈ code, i.Suits maxLocals returnsValue length) (pc : Nat) :
    checkAllOperands maxLocals returnsValue length pc code = .ok () := by
  induction code generalizing pc with
  | nil => rfl
  | cons i rest ih =>
    simp only [checkAllOperands, Instruction.checkOperands_of_suits (h i (.head _))]
    exact ih (fun j hj ↦ h j (.tail _ hj)) (pc + 1)

/-- An instruction that agrees with its successors has them, and all of them have the depth behind
it. -/
theorem Instruction.Agrees.successors {i : Instruction} {depths : Nat → Option Nat}
    {bound length pc depth : Nat} (h : i.Agrees depths bound length pc depth) :
    ∃ next, i.successors pc length = .ok next ∧
      ∀ n ∈ next, depths n = some (i.depthBehind depth) := by
  have htargets : ∀ n ∈ i.target?.toList.map UInt32.toNat,
      depths n = some (i.depthBehind depth) := by
    intro n hn
    obtain ⟨t, ht, rfl⟩ := List.mem_map.mp hn
    exact (h.jumps t (Option.mem_toList.mp ht)).2
  cases hf : i.fallsThrough with
  | true =>
    obtain ⟨hlt, hnext⟩ := h.falls hf
    refine ⟨(pc + 1) :: i.target?.toList.map UInt32.toNat, ?_, ?_⟩
    · rw [Instruction.successors, if_pos hf, if_neg (by omega)]
    · intro n hn
      rcases List.mem_cons.mp hn with rfl | hn
      · exact hnext
      · exact htargets n hn
  | false =>
    refine ⟨i.target?.toList.map UInt32.toNat, ?_, htargets⟩
    rw [Instruction.successors, hf, if_neg Bool.false_ne_true]

/-! ### The walk -/

namespace DepthWalk

variable {code : List Instruction} {depths : Nat → Option Nat} {bound : Nat}

/-- A walk that has only found depths of an assignment and stays under a bound. -/
structure Under (code : List Instruction) (depths : Nat → Option Nat) (bound : Nat)
    (w : DepthWalk) : Prop where
  size : w.depths.size = code.length
  found : ∀ pc depth, w.depthAt pc = some depth → depths pc = some depth
  deepest_le : w.deepest ≤ bound

/-- Reaching an instruction of the code with its depth succeeds. -/
theorem under_reach {w : DepthWalk} {pc depth : Nat} (hw : w.Under code depths bound)
    (hpc : pc < code.length) (hd : depths pc = some depth) :
    ∃ w', w.reach pc depth = .ok w' ∧ w'.Under code depths bound := by
  cases hfound : w.depthAt pc with
  | none =>
    refine ⟨⟨w.depths.setIfInBounds pc (some depth), pc :: w.pending, w.deepest⟩, ?_,
      ⟨by simpa using hw.size, fun n e hn ↦ ?_, hw.deepest_le⟩⟩
    · rw [depthAt] at hfound
      simp only [reach, hfound]
    · rw [depthAt_set w (by rw [hw.size]; exact hpc)] at hn
      split at hn
      · next he =>
        rw [← he, hd, hn]
      · exact hw.found n e hn
  | some found =>
    -- The walk has been here, and with the depth that the assignment has.
    have he : found = depth := Option.some.inj ((hw.found pc found hfound).symm.trans hd)
    refine ⟨w, ?_, hw⟩
    rw [depthAt] at hfound
    simp only [reach, hfound, if_pos he]

/-- Reaching instructions of the code with their depth succeeds. -/
theorem under_reachAll {w : DepthWalk} {depth : Nat} {next : List Nat}
    (hw : w.Under code depths bound)
    (hnext : ∀ n ∈ next, n < code.length ∧ depths n = some depth) :
    ∃ w', w.reachAll depth next = .ok w' ∧ w'.Under code depths bound := by
  induction next generalizing w with
  | nil => exact ⟨w, rfl, hw⟩
  | cons pc rest ih =>
    obtain ⟨hpc, hd⟩ := hnext pc (.head _)
    obtain ⟨v, hv, hunder⟩ := under_reach hw hpc hd
    obtain ⟨w', hw', hunder'⟩ := ih hunder fun n hn ↦ hnext n (.tail _ hn)
    exact ⟨w', by simp only [reachAll, hv, hw'], hunder'⟩

/-- An index with an agreeing depth is one of the code. -/
theorem lt_length_of_agree (h : DepthsAgree code depths bound) {pc depth : Nat}
    (hd : depths pc = some depth) : pc < code.length := by
  obtain ⟨i, hi, -⟩ := h.agrees pc depth hd
  exact (List.getElem?_eq_some_iff.mp hi).1

/-- Visiting an instruction with its depth succeeds. -/
theorem under_visit {w : DepthWalk} {pc depth : Nat} {i : Instruction}
    (h : DepthsAgree code depths bound) (hw : w.Under code depths bound)
    (hi : i.Agrees depths bound code.length pc depth) :
    ∃ w', w.visit i pc depth code.length = .ok w' ∧ w'.Under code depths bound := by
  obtain ⟨next, hnext, hdepths⟩ := hi.successors
  have hdeeper : Under code depths bound
      { w with deepest := max w.deepest (i.depthBehind depth) } :=
    ⟨hw.size, hw.found, Nat.max_le.mpr ⟨hw.deepest_le, hi.behind_le⟩⟩
  obtain ⟨w', hw', hunder⟩ := under_reachAll hdeeper fun n hn ↦
    ⟨lt_length_of_agree h (hdepths n hn), hdepths n hn⟩
  refine ⟨w', ?_, hunder⟩
  rw [visit, if_neg (Nat.not_lt.mpr hi.pops_le)]
  simp only [hnext]
  exact hw'

/-- A walk under agreeing depths succeeds and stays under them. -/
theorem under_run (h : DepthsAgree code depths bound) (fuel : Nat) {w : DepthWalk}
    (hw : w.Under code depths bound) :
    ∃ w', run code.toArray fuel w = .ok w' ∧ w'.Under code depths bound := by
  induction fuel generalizing w with
  | zero => exact ⟨w, rfl, hw⟩
  | succ fuel ih =>
    rw [run]
    split
    · exact ⟨w, rfl, hw⟩
    · next pc pending hp =>
      have hpending : Under code depths bound { w with pending } :=
        ⟨hw.size, hw.found, hw.deepest_le⟩
      split
      · next i depth hi hd =>
        obtain ⟨j, hj, hagrees⟩ := h.agrees pc depth (hw.found pc depth hd)
        rw [List.getElem?_toArray, hj, Option.some.injEq] at hi
        subst hi
        obtain ⟨v, hv, hunder⟩ := under_visit h hpending hagrees
        simp only [List.size_toArray, hv]
        exact ih hunder
      · exact ih hpending

/-- Before the walk only the first instruction has a depth, which is zero. -/
theorem under_start (h : DepthsAgree code depths bound) :
    (start code.length).Under code depths bound := by
  refine ⟨by simp [start], fun pc d hd ↦ ?_, Nat.zero_le _⟩
  have hset := depthAt_set ⟨Array.replicate code.length none, [], 0⟩
    (by simpa using lt_length_of_agree h h.start) 0 pc [0] 0
  rw [start, hset] at hd
  split at hd
  · next he =>
    rw [← he, ← hd, h.start]
  · simp [depthAt, Array.getElem?_replicate] at hd
    split at hd <;> simp at hd

end DepthWalk

/-! ### Bodies -/

/-- A body that suits its method and has agreeing depths reaches no depth beyond their bound; all
that can still be wrong with the depth is that it does not fit in 16 bits. -/
theorem Body.reachedDepth_of_depthsAgree {b : Body} {slots : Nat} {returnsValue : Bool}
    {depths : Nat → Option Nat} {bound : Nat} (hslots : slots ≤ b.maxLocals.toNat)
    (hsuits : ∀ i ∈ b.code, i.Suits b.maxLocals returnsValue b.code.length)
    (h : DepthsAgree b.code depths bound) :
    ∃ deepest ≤ bound, b.reachedDepth slots returnsValue =
      if deepest < UInt16.size then .ok (UInt16.ofNat deepest) else .error (.tooDeep deepest) := by
  obtain ⟨w, hw, hunder⟩ :=
    DepthWalk.under_run h b.code.length (DepthWalk.under_start h)
  have hne : b.code.isEmpty = false := by
    rw [List.isEmpty_eq_false_iff]
    exact List.ne_nil_of_length_pos (DepthWalk.lt_length_of_agree h h.start)
  refine ⟨w.deepest, hunder.deepest_le, ?_⟩
  simp only [reachedDepth, hne, Bool.false_eq_true, if_false, if_neg (Nat.not_lt.mpr hslots),
    List.size_toArray, checkAllOperands_of_suits hsuits, hw]

/-- A body that suits its method and has agreeing depths up to one of 16 bits reaches a depth, and
none beyond that. -/
theorem Body.reachedDepth_le_of_depthsAgree {b : Body} {slots : Nat} {returnsValue : Bool}
    {depths : Nat → Option Nat} {bound : Nat} (hslots : slots ≤ b.maxLocals.toNat)
    (hsuits : ∀ i ∈ b.code, i.Suits b.maxLocals returnsValue b.code.length)
    (h : DepthsAgree b.code depths bound) (hbound : bound < UInt16.size) :
    ∃ reached, b.reachedDepth slots returnsValue = .ok reached ∧ reached.toNat ≤ bound := by
  obtain ⟨deepest, hle, hreached⟩ := Body.reachedDepth_of_depthsAgree hslots hsuits h
  have hlt : deepest < UInt16.size := Nat.lt_of_le_of_lt hle hbound
  refine ⟨UInt16.ofNat deepest, by rw [hreached, if_pos hlt], ?_⟩
  rw [UInt16.toNat_ofNat_of_lt' hlt]
  exact hle

end Hotswap
