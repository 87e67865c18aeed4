import Mathlib
import Hotswap.Proofs.DepthBound
import Hotswap.Proofs.Verification

/-!
# Which bodies have a depth, and which depth that is

A body has a depth just if it fits its method and the instructions that control can get to have
depths that agree along the control flow. Its depth is then the greatest behind any of these
instructions. Nothing in this speaks of a walk, so it makes no difference in which order a walk
visits the pending instructions. A walk in any order ends, since no instruction becomes pending
twice.
-/

namespace Hotswap

/-! ### Control flow -/

/-- Control can go from an instruction at an index to the next index or to a branch target. -/
inductive Instruction.LeadsTo (i : Instruction) (pc : Nat) : Nat → Prop where
  | next : i.fallsThrough = true → LeadsTo i pc (pc + 1)
  | target {t : UInt32} : i.target? = some t → LeadsTo i pc t.toNat

/-- Control can get to an index, from the first instruction of a code on. -/
inductive Reaches (code : List Instruction) : Nat → Prop where
  | start : Reaches code 0
  | step {pc next : Nat} {i : Instruction} :
    Reaches code pc → code[pc]? = some i → i.LeadsTo pc next → Reaches code next

/-- Depths for the instructions that control can get to: the first one has depth zero, each finds
its operands, every edge of the control flow carries the depth behind its instruction, and none of
them leads past the end of the code. -/
structure AssignsDepths (code : List Instruction) (depths : Nat → Nat) : Prop where
  start : depths 0 = 0
  pops_le : ∀ pc i, Reaches code pc → code[pc]? = some i → i.pops ≤ depths pc
  carries : ∀ pc i next, Reaches code pc → code[pc]? = some i → i.LeadsTo pc next →
    depths next = i.depthBehind (depths pc)
  falls : ∀ pc i, Reaches code pc → code[pc]? = some i → i.fallsThrough = true →
    pc + 1 < code.length

/-- The depths behind the instructions that control can get to. -/
def depthsBehind (code : List Instruction) (depths : Nat → Nat) : Set Nat :=
  {n | ∃ pc i, Reaches code pc ∧ code[pc]? = some i ∧ n = i.depthBehind (depths pc)}

/-- A body has code, its locals cover the arguments of a method, and the operands of its
instructions suit the method. -/
structure Body.Fits (b : Body) (d : MethodDecl) : Prop where
  code_pos : 0 < b.code.length
  slots_le : d.argumentSlots ≤ b.maxLocals.toNat
  suits : ∀ i ∈ b.code, i.Suits b.maxLocals d.type.returnsValue b.code.length

section

variable {code : List Instruction} {depths : Nat → Nat} {found : Nat → Option Nat} {bound : Nat}

/-- Agreeing depths are there for every index that control can get to. -/
theorem DepthsAgree.exists_depth (h : DepthsAgree code found bound) {pc : Nat}
    (hpc : Reaches code pc) : ∃ depth, found pc = some depth := by
  induction hpc with
  | start => exact ⟨0, h.start⟩
  | step _ hi hleads ih =>
    obtain ⟨depth, hdepth⟩ := ih
    obtain ⟨j, hj, hagrees⟩ := h.agrees _ depth hdepth
    obtain rfl := Option.some.inj (hj.symm.trans hi)
    cases hleads with
    | next hfalls => exact ⟨_, (hagrees.falls hfalls).2⟩
    | target ht => exact ⟨_, (hagrees.jumps _ ht).2⟩

/-- Agreeing depths agree at an instruction that control can get to. -/
theorem DepthsAgree.agrees_of_reaches (h : DepthsAgree code found bound) {pc : Nat}
    {i : Instruction} (hpc : Reaches code pc) (hi : code[pc]? = some i) :
    i.Agrees found bound code.length pc ((found pc).getD 0) := by
  obtain ⟨depth, hdepth⟩ := h.exists_depth hpc
  obtain ⟨j, hj, hagrees⟩ := h.agrees pc depth hdepth
  obtain rfl := Option.some.inj (hj.symm.trans hi)
  rwa [hdepth]

/-- Agreeing depths are an assignment, and all depths behind instructions are under their bound. -/
theorem DepthsAgree.assigns (h : DepthsAgree code found bound) :
    AssignsDepths code (fun pc ↦ (found pc).getD 0) ∧
      ∀ n ∈ depthsBehind code (fun pc ↦ (found pc).getD 0), n ≤ bound := by
  refine ⟨⟨?_, ?_, ?_, ?_⟩, ?_⟩
  · rw [h.start, Option.getD_some]
  · intro pc i hpc hi
    exact (h.agrees_of_reaches hpc hi).pops_le
  · intro pc i next hpc hi hleads
    have hagrees := h.agrees_of_reaches hpc hi
    cases hleads with
    | next hfalls => rw [(hagrees.falls hfalls).2, Option.getD_some]
    | target ht => rw [(hagrees.jumps _ ht).2, Option.getD_some]
  · intro pc i hpc hi hfalls
    exact ((h.agrees_of_reaches hpc hi).falls hfalls).1
  · rintro n ⟨pc, i, hpc, hi, rfl⟩
    exact (h.agrees_of_reaches hpc hi).behind_le

/-- An assignment agrees with every other one at the indices that control can get to. -/
theorem AssignsDepths.eq_of_reaches (h : AssignsDepths code depths) {others : Nat → Nat}
    (hothers : AssignsDepths code others) {pc : Nat} (hpc : Reaches code pc) :
    depths pc = others pc := by
  induction hpc with
  | start => rw [h.start, hothers.start]
  | step hpc hi hleads ih =>
    rw [h.carries _ _ _ hpc hi hleads, hothers.carries _ _ _ hpc hi hleads, ih]

/-- Assignments have the same depths behind the instructions that control can get to. -/
theorem AssignsDepths.depthsBehind_eq (h : AssignsDepths code depths) {others : Nat → Nat}
    (hothers : AssignsDepths code others) :
    depthsBehind code depths = depthsBehind code others := by
  ext n
  constructor
  · rintro ⟨pc, i, hpc, hi, rfl⟩
    exact ⟨pc, i, hpc, hi, by rw [h.eq_of_reaches hothers hpc]⟩
  · rintro ⟨pc, i, hpc, hi, rfl⟩
    exact ⟨pc, i, hpc, hi, by rw [h.eq_of_reaches hothers hpc]⟩

/-- Control gets to indices of the code only, if no branch leads out of it. -/
theorem AssignsDepths.getElem?_of_reaches (h : AssignsDepths code depths) (hpos : 0 < code.length)
    (htarget : ∀ i ∈ code, ∀ t, i.target? = some t → t.toNat < code.length) {pc : Nat}
    (hpc : Reaches code pc) : ∃ i, code[pc]? = some i := by
  have hlt : pc < code.length := by
    cases hpc with
    | start => exact hpos
    | step hpc hi hleads =>
      cases hleads with
      | next hfalls => exact h.falls _ _ hpc hi hfalls
      | target ht => exact htarget _ (List.mem_of_getElem? hi) _ ht
  exact ⟨code[pc], List.getElem?_eq_getElem hlt⟩

/-- An assignment, restricted to the indices that control can get to, consists of agreeing depths,
up to any bound of the depths behind instructions. -/
theorem AssignsDepths.exists_depthsAgree (h : AssignsDepths code depths)
    (hpos : 0 < code.length)
    (htarget : ∀ i ∈ code, ∀ t, i.target? = some t → t.toNat < code.length)
    (hbound : ∀ n ∈ depthsBehind code depths, n ≤ bound) :
    ∃ found, DepthsAgree code found bound := by
  classical
  refine ⟨fun pc ↦ if Reaches code pc then some (depths pc) else none, ?_⟩
  constructor
  · simp [Reaches.start, h.start]
  · intro pc depth hdepth
    obtain ⟨hpc, rfl⟩ := by simpa using hdepth
    -- A depth is zero at the start, and elsewhere one behind an instruction.
    cases hpc with
    | start =>
      rw [h.start]
      exact Nat.zero_le bound
    | step hpc hi hleads =>
      rw [h.carries _ _ _ hpc hi hleads]
      exact hbound _ ⟨_, _, hpc, hi, rfl⟩
  · intro pc depth hdepth
    obtain ⟨hpc, rfl⟩ := by simpa using hdepth
    obtain ⟨i, hi⟩ := h.getElem?_of_reaches hpos htarget hpc
    refine ⟨i, hi, h.pops_le pc i hpc hi, hbound _ ⟨pc, i, hpc, hi, rfl⟩, ?_, ?_⟩
    · intro hfalls
      have hleads : i.LeadsTo pc (pc + 1) := .next hfalls
      refine ⟨h.falls pc i hpc hi hfalls, ?_⟩
      rw [if_pos (hpc.step hi hleads), h.carries pc i _ hpc hi hleads]
    · intro t ht
      have hleads : i.LeadsTo pc t.toNat := .target ht
      refine ⟨htarget i (List.mem_of_getElem? hi) t ht, ?_⟩
      rw [if_pos (hpc.step hi hleads), h.carries pc i _ hpc hi hleads]

end

/-! ### The depth of a body -/

namespace Body

variable {b : Body} {d : MethodDecl} {m : UInt16}

/-- A body with a depth fits its method and has agreeing depths up to that one. -/
theorem fits_of_reachedDepth (h : b.reachedDepth d.argumentSlots d.type.returnsValue = .ok m) :
    b.Fits d ∧ ∃ found, DepthsAgree b.code found m.toNat := by
  obtain ⟨found, hslots, hsuits, hagree⟩ := checked_of_reachedDepth h
  exact ⟨⟨DepthWalk.lt_length_of_agree hagree hagree.start, hslots, hsuits⟩, found, hagree⟩

/-- If the depths that an assignment gives have a greatest one, the walk finds it. -/
theorem reachedDepth_of_isGreatest (hfits : b.Fits d) {depths : Nat → Nat} {deepest : Nat}
    (h : AssignsDepths b.code depths) (hdeepest : IsGreatest (depthsBehind b.code depths) deepest) :
    b.reachedDepth d.argumentSlots d.type.returnsValue =
      if deepest < UInt16.size then .ok (UInt16.ofNat deepest) else .error (.tooDeep deepest) := by
  have htarget := fun i hi ↦ (hfits.suits i hi).target
  obtain ⟨found, hagree⟩ := h.exists_depthsAgree hfits.code_pos htarget fun n hn ↦ hdeepest.2 hn
  obtain ⟨w, hw, hunder⟩ := DepthWalk.under_run hagree b.code.length (DepthWalk.under_start hagree)
  -- The walk stays under the greatest depth, and what it finds is an assignment as well.
  have hfound := (DepthWalk.depthsAgree_run htarget (DepthWalk.sound_start hfits.code_pos)
    (Nat.le_of_eq (DepthWalk.effort_start hfits.code_pos)) hw).assigns
  have hle : deepest ≤ w.deepest := by
    apply hfound.2
    rw [← h.depthsBehind_eq hfound.1]
    exact hdeepest.1
  obtain rfl : deepest = w.deepest := Nat.le_antisymm hle hunder.deepest_le
  have hne : b.code.isEmpty = false := by
    rw [List.isEmpty_eq_false_iff]
    exact List.ne_nil_of_length_pos hfits.code_pos
  simp only [reachedDepth, hne, Bool.false_eq_true, if_false,
    if_neg (Nat.not_lt.mpr hfits.slots_le), List.size_toArray,
    checkAllOperands_of_suits hfits.suits, hw]

/-- The depths behind the instructions of a code that has some have a greatest one if they are
bounded. -/
theorem exists_isGreatest {code : List Instruction} {depths : Nat → Nat} {bound : Nat}
    (hpos : 0 < code.length) (hbound : ∀ n ∈ depthsBehind code depths, n ≤ bound) :
    ∃ deepest, IsGreatest (depthsBehind code depths) deepest := by
  have hne : (depthsBehind code depths).Nonempty :=
    ⟨_, 0, code[0], .start, List.getElem?_eq_getElem hpos, rfl⟩
  have hbdd : BddAbove (depthsBehind code depths) := ⟨bound, hbound⟩
  exact ⟨_, Nat.sSup_mem hne hbdd, fun n hn ↦ le_csSup hbdd hn⟩

/-- A body has a depth just if it fits its method and depths can be assigned of which that is the
greatest behind an instruction. -/
theorem reachedDepth_eq_ok_iff :
    b.reachedDepth d.argumentSlots d.type.returnsValue = .ok m ↔
      b.Fits d ∧ ∃ depths, AssignsDepths b.code depths ∧
        IsGreatest (depthsBehind b.code depths) m.toNat := by
  constructor
  · intro h
    obtain ⟨hfits, found, hagree⟩ := fits_of_reachedDepth h
    obtain ⟨hassigns, hbound⟩ := hagree.assigns
    obtain ⟨deepest, hdeepest⟩ := exists_isGreatest hfits.code_pos hbound
    have hreached := reachedDepth_of_isGreatest hfits hassigns hdeepest
    rw [h] at hreached
    split at hreached
    · next hlt =>
      obtain rfl := Except.ok.inj hreached
      refine ⟨hfits, _, hassigns, ?_⟩
      rwa [UInt16.toNat_ofNat_of_lt' hlt]
    · cases hreached
  · rintro ⟨hfits, depths, hassigns, hdeepest⟩
    rw [reachedDepth_of_isGreatest hfits hassigns hdeepest, if_pos m.toNat_lt, UInt16.ofNat_toNat]

end Body

/-! ### Walks in any order -/

namespace DepthWalk

/-- A walk visits one of its pending instructions, whichever. -/
inductive Visits (code : List Instruction) (w : DepthWalk) :
    Except Unverifiable DepthWalk → Prop where
  | visit {before after : List Nat} {pc depth : Nat} {i : Instruction} :
    w.pending = before ++ pc :: after → code[pc]? = some i → w.depthAt pc = some depth →
    Visits code w ({ w with pending := before ++ after }.visit i pc depth code.length)

/-- A walk makes a number of visits in some order, up to the first that fails. -/
inductive Walks (code : List Instruction) :
    Nat → DepthWalk → Except Unverifiable DepthWalk → Prop where
  | stop (w : DepthWalk) : Walks code 0 w (.ok w)
  | fail {w : DepthWalk} {e : Unverifiable} : w.Visits code (.error e) → Walks code 1 w (.error e)
  | visit {n : Nat} {w w' : DepthWalk} {result : Except Unverifiable DepthWalk} :
    w.Visits code (.ok w') → Walks code n w' result → Walks code (n + 1) w result

/-- A walk has failed or has nothing left to visit. -/
def Complete (result : Except Unverifiable DepthWalk) : Prop :=
  ∀ w, result = .ok w → w.pending = []

/-- A walk is sound, and what is pending has been given a depth. -/
structure Going (code : List Instruction) (w : DepthWalk) : Prop where
  sound : Sound code w
  pending : ∀ pc ∈ w.pending, ∃ depth, w.depthAt pc = some depth

variable {code : List Instruction} {w w' : DepthWalk} {result : Except Unverifiable DepthWalk}

/-- Soundness does not depend on the order of what is pending. -/
theorem Sound.perm {pending : List Nat} (hw : Sound code w) (h : w.pending.Perm pending) :
    Sound code { w with pending } := by
  refine ⟨hw.size, hw.start, hw.le_deepest, fun pc depth hdepth ↦ ?_⟩
  rcases hw.visited pc depth hdepth with hpc | hagrees
  · exact .inl (h.mem_iff.mp hpc)
  · exact .inr hagrees

/-- Effort does not depend on the order of what is pending. -/
theorem effort_perm {pending : List Nat} (h : w.pending.Perm pending) :
    effort { w with pending } = w.effort := by
  rw [effort, effort, h.length_eq]

/-- An index that was given a depth is one of the code. -/
theorem Sound.getElem?_of_depthAt (hw : Sound code w) {pc depth : Nat}
    (h : w.depthAt pc = some depth) : ∃ i, code[pc]? = some i := by
  by_cases hlt : pc < code.length
  · exact ⟨code[pc], List.getElem?_eq_getElem hlt⟩
  · rw [← hw.size] at hlt
    simp [depthAt, Array.getD_eq_getD_getElem?, hlt] at h

/-- What becomes pending is given a depth. -/
theorem depthAt_of_mem_pending_reachAll {depth : Nat} {next : List Nat}
    (hnext : ∀ n ∈ next, n < w.depths.size) (h : w.reachAll depth next = .ok w')
    (hpending : ∀ pc ∈ w.pending, ∃ depth, w.depthAt pc = some depth) :
    ∀ pc ∈ w'.pending, ∃ depth, w'.depthAt pc = some depth := by
  induction next generalizing w with
  | nil =>
    cases h
    exact hpending
  | cons n rest ih =>
    obtain ⟨hn, hrest⟩ := List.forall_mem_cons.mp hnext
    simp only [reachAll] at h
    split at h
    · next v hv =>
      obtain ⟨hext, hat⟩ := extends_reach hn hv
      refine ih (by rwa [hext.size]) h fun pc hpc ↦ ?_
      have hcases : pc = n ∨ pc ∈ w.pending := by
        simp only [reach] at hv
        split at hv
        · cases hv
          exact List.mem_cons.mp hpc
        · split at hv
          · cases hv
            exact .inr hpc
          · cases hv
      rcases hcases with rfl | hold
      · exact ⟨depth, hat⟩
      · obtain ⟨e, he⟩ := hpending pc hold
        exact ⟨e, hext.keeps pc e he⟩
    · cases h

/-- A walk that has only reached the first instruction is going. -/
theorem going_start (hpos : 0 < code.length) : Going code (start code.length) := by
  have hsound := sound_start hpos
  refine ⟨hsound, fun pc hpc ↦ ?_⟩
  rw [List.mem_singleton.mp hpc]
  exact ⟨0, hsound.start⟩

/-- A visit keeps a walk going and costs one unit of effort, whichever instruction it is of. -/
theorem Going.visits (htarget : ∀ i ∈ code, ∀ t, i.target? = some t → t.toNat < code.length)
    (hw : Going code w) (h : w.Visits code (.ok w')) :
    Going code w' ∧ w'.effort + 1 = w.effort := by
  generalize hresult : Except.ok w' = result at h
  obtain ⟨hpending, hi, hdepth⟩ := h
  rename_i before after pc depth i
  have hperm : w.pending.Perm (pc :: (before ++ after)) := hpending ▸ List.perm_middle
  obtain ⟨hsound, heffort⟩ := sound_visit (w := { w with pending := pc :: (before ++ after) })
    (hw.sound.perm hperm) rfl hi hdepth (htarget i (List.mem_of_getElem? hi)) hresult.symm
  rw [effort_perm hperm] at heffort
  refine ⟨⟨hsound, ?_⟩, heffort⟩
  have hrest : ∀ n ∈ before ++ after, ∃ depth, w.depthAt n = some depth :=
    fun n hn ↦ hw.pending n (hperm.mem_iff.mpr (.tail _ hn))
  have hvisit := hresult.symm
  simp only [visit] at hvisit
  split at hvisit
  · cases hvisit
  · split at hvisit
    · cases hvisit
    · next next hnext =>
      refine depthAt_of_mem_pending_reachAll ?_ hvisit hrest
      intro n hn
      rw [hw.sound.size]
      rcases (Instruction.mem_successors hnext).2.2 n hn with hlt | ⟨t, ht, rfl⟩
      · exact hlt
      · exact htarget i (List.mem_of_getElem? hi) t ht

/-- Visits cost a unit of effort each, and what they lead to is going. -/
theorem Going.walks {n : Nat}
    (htarget : ∀ i ∈ code, ∀ t, i.target? = some t → t.toNat < code.length) (hw : Going code w)
    (h : Walks code n w result) :
    n ≤ w.effort ∧ ∀ w', result = .ok w' → Going code w' := by
  induction h with
  | stop =>
    refine ⟨Nat.zero_le _, fun w' hw' ↦ ?_⟩
    cases hw'
    exact hw
  | @fail w e hvisits =>
    refine ⟨?_, nofun⟩
    -- An instruction that is visited was pending.
    generalize Except.error e = result at hvisits
    obtain ⟨hpending⟩ := hvisits
    simp only [effort, hpending, List.length_append, List.length_cons]
    omega
  | visit hvisits _ ih =>
    obtain ⟨hgoing, heffort⟩ := hw.visits htarget hvisits
    obtain ⟨hle, hends⟩ := ih hgoing
    exact ⟨by omega, hends⟩

/-- A walk that is going can visit whatever is pending. -/
theorem Going.exists_visits (hw : Going code w) (h : w.pending ≠ []) :
    ∃ result, w.Visits code result := by
  obtain ⟨pc, rest, hpending⟩ := List.exists_cons_of_ne_nil h
  obtain ⟨depth, hdepth⟩ := hw.pending pc (hpending ▸ .head rest)
  obtain ⟨i, hi⟩ := hw.sound.getElem?_of_depthAt hdepth
  exact ⟨_, .visit (show w.pending = [] ++ pc :: rest from hpending) hi hdepth⟩

/-- A walk that has visited everything has found agreeing depths. -/
theorem Going.depthsAgree (hw : Going code w) (h : w.pending = []) :
    DepthsAgree code w.depthAt w.deepest := by
  refine ⟨hw.sound.start, hw.sound.le_deepest, fun pc depth hdepth ↦ ?_⟩
  simpa [h] using hw.sound.visited pc depth hdepth

/-- Under agreeing depths no walk fails, in whatever order it visits, and all stay under them. -/
theorem under_walks {depths : Nat → Option Nat} {bound n : Nat}
    (h : DepthsAgree code depths bound) (hw : w.Under code depths bound)
    (hwalks : Walks code n w result) : ∃ w', result = .ok w' ∧ w'.Under code depths bound := by
  have hvisit : ∀ {w : DepthWalk} {result : Except Unverifiable DepthWalk},
      w.Under code depths bound → w.Visits code result →
        ∃ w', result = .ok w' ∧ w'.Under code depths bound := by
    rintro w _ hw ⟨-, hi, hdepth⟩
    obtain ⟨j, hj, hagrees⟩ := h.agrees _ _ (hw.found _ _ hdepth)
    obtain rfl := Option.some.inj (hj.symm.trans hi)
    exact under_visit h ⟨hw.size, hw.found, hw.deepest_le⟩ hagrees
  induction hwalks with
  | stop => exact ⟨_, rfl, hw⟩
  | fail hfails =>
    obtain ⟨_, he, -⟩ := hvisit hw hfails
    cases he
  | visit hvisits _ ih =>
    obtain ⟨w', hw', hunder⟩ := hvisit hw hvisits
    cases hw'
    exact ih hunder

/-- The walk that is run visits what became pending last, and goes on until nothing is. -/
theorem Going.walks_run (htarget : ∀ i ∈ code, ∀ t, i.target? = some t → t.toNat < code.length)
    (hw : Going code w) {fuel : Nat} (hfuel : w.effort ≤ fuel) :
    (∃ n, Walks code n w (run code.toArray fuel w)) ∧ Complete (run code.toArray fuel w) := by
  induction fuel generalizing w with
  | zero =>
    refine ⟨⟨0, .stop w⟩, fun w' hw' ↦ ?_⟩
    cases hw'
    apply List.eq_nil_of_length_eq_zero
    simp only [effort] at hfuel
    omega
  | succ fuel ih =>
    cases hpending : w.pending with
    | nil =>
      have hrun : run code.toArray (fuel + 1) w = .ok w := by
        simp only [run, hpending]
      rw [hrun]
      refine ⟨⟨0, .stop w⟩, fun w' hw' ↦ ?_⟩
      cases hw'
      exact hpending
    | cons pc rest =>
      obtain ⟨depth, hdepth⟩ := hw.pending pc (hpending ▸ .head rest)
      obtain ⟨i, hi⟩ := hw.sound.getElem?_of_depthAt hdepth
      have hvisits : w.Visits code ({ w with pending := rest }.visit i pc depth code.length) :=
        .visit (show w.pending = [] ++ pc :: rest from hpending) hi hdepth
      rw [depthAt] at hdepth
      cases hvisit : { w with pending := rest }.visit i pc depth code.length with
      | error e =>
        have hrun : run code.toArray (fuel + 1) w = .error e := by
          simp only [run, hpending, List.getElem?_toArray, hi, hdepth, List.size_toArray, hvisit]
        rw [hvisit] at hvisits
        rw [hrun]
        refine ⟨⟨1, .fail hvisits⟩, fun w' hw' ↦ ?_⟩
        cases hw'
      | ok v =>
        have hrun : run code.toArray (fuel + 1) w = run code.toArray fuel v := by
          simp only [run, hpending, List.getElem?_toArray, hi, hdepth, List.size_toArray, hvisit]
        rw [hvisit] at hvisits
        obtain ⟨hgoing, heffort⟩ := hw.visits htarget hvisits
        obtain ⟨⟨n, hwalks⟩, hcomplete⟩ := ih hgoing (by omega)
        rw [hrun]
        exact ⟨⟨n + 1, .visit hvisits hwalks⟩, hcomplete⟩

/-- Whatever the order of its visits, a walk that is complete tells whether the body has a depth,
and which one. -/
theorem reachedDepth_eq_ok_iff_of_walks {b : Body} {d : MethodDecl} {n : Nat} {m : UInt16}
    (h : Walks b.code n (start b.code.length) result) (hcomplete : Complete result) :
    b.reachedDepth d.argumentSlots d.type.returnsValue = .ok m ↔
      b.Fits d ∧ ∃ w, result = .ok w ∧ w.deepest = m.toNat := by
  have hends : b.Fits d → ∀ w, result = .ok w → DepthsAgree b.code w.depthAt w.deepest := by
    intro hfits w hw
    have htarget := fun i hi ↦ (hfits.suits i hi).target
    exact (((going_start hfits.code_pos).walks htarget h).2 w hw).depthsAgree (hcomplete w hw)
  constructor
  · intro hreached
    obtain ⟨hfits, found, hagree⟩ := Body.fits_of_reachedDepth hreached
    obtain ⟨w, rfl, hunder⟩ := under_walks hagree (under_start hagree) h
    obtain ⟨m', hm', hle⟩ := Body.reachedDepth_le_of_depthsAgree hfits.slots_le hfits.suits
      (hends hfits w rfl) (Nat.lt_of_le_of_lt hunder.deepest_le m.toNat_lt)
    obtain rfl := Except.ok.inj (hreached.symm.trans hm')
    exact ⟨hfits, w, rfl, Nat.le_antisymm hunder.deepest_le hle⟩
  · rintro ⟨hfits, w, rfl, hdeepest⟩
    have hagree := hends hfits w rfl
    obtain ⟨m', hm', hle⟩ := Body.reachedDepth_le_of_depthsAgree hfits.slots_le hfits.suits hagree
      (hdeepest ▸ m.toNat_lt)
    obtain ⟨-, found, hagree'⟩ := Body.fits_of_reachedDepth hm'
    obtain ⟨_, hw, hunder⟩ := under_walks hagree' (under_start hagree') h
    cases hw
    have heq : m' = m :=
      UInt16.toNat_inj.mp (Nat.le_antisymm (hdeepest ▸ hle) (hdeepest ▸ hunder.deepest_le))
    rwa [heq] at hm'

end DepthWalk

/-- The depth of a body is computed exactly. There is one just if the body fits its method and
depths can be assigned to the instructions that control can get to, and it is the greatest depth
behind one of them. A walk that visits the pending instructions in any order makes no more visits
than there are instructions, can go on while anything is pending, and tells in the end whether there
is a depth and which one; the walk that is run is one of these. -/
theorem ClassDecl.reachedDepth_exact (c : ClassDecl) (d : MethodDecl) (b : Body) :
    (∀ m, c.reachedDepth d b = .ok m ↔
      b.Fits d ∧ ∃ depths, AssignsDepths b.code depths ∧
        IsGreatest (depthsBehind b.code depths) m.toNat) ∧
    (∀ n result, DepthWalk.Walks b.code n (.start b.code.length) result →
      (b.Fits d → n ≤ b.code.length ∧
        ∀ w, result = .ok w → w.pending ≠ [] → ∃ next, w.Visits b.code next) ∧
      (DepthWalk.Complete result → ∀ m, c.reachedDepth d b = .ok m ↔
        b.Fits d ∧ ∃ w, result = .ok w ∧ w.deepest = m.toNat)) ∧
    (b.Fits d →
      let result := DepthWalk.run b.code.toArray b.code.length (.start b.code.length)
      (∃ n, DepthWalk.Walks b.code n (.start b.code.length) result) ∧
        DepthWalk.Complete result) := by
  have hreached : ∀ m, c.reachedDepth d b = .ok m ↔
      b.reachedDepth d.argumentSlots d.type.returnsValue = .ok m := fun m ↦ mapError_eq_ok
  refine ⟨fun m ↦ (hreached m).trans Body.reachedDepth_eq_ok_iff, ?_, ?_⟩
  · intro n result hwalks
    constructor
    · intro hfits
      have htarget := fun i hi ↦ (hfits.suits i hi).target
      obtain ⟨hle, hends⟩ := (DepthWalk.going_start hfits.code_pos).walks htarget hwalks
      rw [DepthWalk.effort_start hfits.code_pos] at hle
      exact ⟨hle, fun w hw ↦ (hends w hw).exists_visits⟩
    · intro hcomplete m
      exact (hreached m).trans (DepthWalk.reachedDepth_eq_ok_iff_of_walks hwalks hcomplete)
  · intro hfits
    have heffort := DepthWalk.effort_start hfits.code_pos
    exact (DepthWalk.going_start hfits.code_pos).walks_run
      (fun i hi ↦ (hfits.suits i hi).target) (Nat.le_of_eq heffort)

end Hotswap
