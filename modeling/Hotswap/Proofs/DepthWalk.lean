import Hotswap.Code.Depth

/-!
# What the walk over stack depths finds

The depths that the walk leaves behind agree along every edge of the control flow: an instruction
with a depth finds its operands, and all its successors have the depth behind it. The walk keeps
this for every instruction that is no longer pending, and it ends with none pending.
-/

namespace Hotswap

/-- The depth behind an instruction that is reached with some depth. -/
def Instruction.depthBehind (i : Instruction) (depth : Nat) : Nat := depth - i.pops + i.pushes

attribute [simp] Instruction.pops Instruction.pushes

/-- An instruction finds its operands, and the depth behind it is that of all its successors. -/
structure Instruction.Agrees (i : Instruction) (depths : Nat → Option Nat) (bound length pc : Nat)
    (depth : Nat) : Prop where
  pops_le : i.pops ≤ depth
  behind_le : i.depthBehind depth ≤ bound
  falls : i.fallsThrough = true → pc + 1 < length ∧ depths (pc + 1) = some (i.depthBehind depth)
  jumps : ∀ t, i.target? = some t →
    t.toNat < length ∧ depths t.toNat = some (i.depthBehind depth)

/-- Depths for instructions of a code that begin with zero, agree along the control flow and do
not exceed a bound. -/
structure DepthsAgree (code : List Instruction) (depths : Nat → Option Nat) (bound : Nat) :
    Prop where
  start : depths 0 = some 0
  le_bound : ∀ pc depth, depths pc = some depth → depth ≤ bound
  agrees : ∀ pc depth, depths pc = some depth →
    ∃ i, code[pc]? = some i ∧ i.Agrees depths bound code.length pc depth

/-- The operands of an instruction suit a method: its local is declared, its kind of return is
that of the method and its target is in the code. -/
structure Instruction.Suits (i : Instruction) (maxLocals : UInt16) (returnsValue : Bool)
    (length : Nat) : Prop where
  load : ∀ index, i = .load index → index < maxLocals
  store : ∀ index, i = .store index → index < maxLocals
  ret : i = .ret → returnsValue = false
  retValue : i = .retValue → returnsValue = true
  target : ∀ t, i.target? = some t → t.toNat < length

/-- Checked operands suit their method. -/
theorem Instruction.suits_of_checkOperands {i : Instruction} {pc : Nat} {maxLocals : UInt16}
    {returnsValue : Bool} {length : Nat}
    (h : i.checkOperands pc maxLocals returnsValue length = .ok ()) :
    i.Suits maxLocals returnsValue length := by
  constructor
  case load =>
    rintro index rfl
    simp only [checkOperands] at h
    split at h
    · cases h
    · next hle => exact UInt16.not_le.mp hle
  case store =>
    rintro index rfl
    simp only [checkOperands] at h
    split at h
    · cases h
    · next hle => exact UInt16.not_le.mp hle
  case ret =>
    rintro rfl
    cases returnsValue with
    | false => rfl
    | true => simp [checkOperands] at h
  case retValue =>
    rintro rfl
    cases returnsValue with
    | false => simp [checkOperands] at h
    | true => rfl
  case target =>
    intro t ht
    cases i with
    | jump u | jumpIf c u =>
      simp only [target?, Option.some.injEq] at ht
      subst ht
      simp only [checkOperands, target?] at h
      split at h
      · cases h
      · omega
    | _ => cases ht

/-- Checked code suits its method at every index. -/
theorem suits_of_checkAllOperands {maxLocals : UInt16} {returnsValue : Bool} {length pc : Nat}
    {code : List Instruction}
    (h : checkAllOperands maxLocals returnsValue length pc code = .ok ()) :
    ∀ i ∈ code, i.Suits maxLocals returnsValue length := by
  induction code generalizing pc with
  | nil => simp
  | cons i rest ih =>
    simp only [checkAllOperands] at h
    split at h
    · next hi =>
      intro j hj
      rcases List.mem_cons.mp hj with rfl | hj
      · exact Instruction.suits_of_checkOperands hi
      · exact ih h j hj
    · cases h

/-- Successors are the next index, which is in the code, and the target. -/
theorem Instruction.mem_successors {i : Instruction} {pc length : Nat} {next : List Nat}
    (h : i.successors pc length = .ok next) :
    (i.fallsThrough = true → pc + 1 < length ∧ pc + 1 ∈ next) ∧
      (∀ t, i.target? = some t → t.toNat ∈ next) ∧
      ∀ n ∈ next, n < length ∨ ∃ t, i.target? = some t ∧ n = t.toNat := by
  simp only [successors] at h
  split at h
  · split at h
    · cases h
    · next hlt =>
      cases h
      have hlt : pc + 1 < length := by omega
      refine ⟨fun _ ↦ ⟨hlt, by simp⟩, fun t ht ↦ by simp [ht], ?_⟩
      intro n hn
      rcases List.mem_cons.mp hn with rfl | hn
      · exact .inl hlt
      · obtain ⟨t, ht, rfl⟩ := List.mem_map.mp hn
        exact .inr ⟨t, Option.mem_toList.mp ht, rfl⟩
  · next hf =>
    cases h
    refine ⟨fun hf' ↦ absurd hf' hf, fun t ht ↦ by simp [ht], ?_⟩
    intro n hn
    obtain ⟨t, ht, rfl⟩ := List.mem_map.mp hn
    exact .inr ⟨t, Option.mem_toList.mp ht, rfl⟩

namespace DepthWalk

/-- The depth found for an instruction. -/
def depthAt (w : DepthWalk) (pc : Nat) : Option Nat := w.depths.getD pc none

/-- What is left to do at most: the pending instructions and those that were not reached. -/
def effort (w : DepthWalk) : Nat := w.pending.length + w.depths.toList.count none

/-- A walk went on by reaching instructions with one depth. -/
structure Extends (depth : Nat) (w w' : DepthWalk) : Prop where
  size : w'.depths.size = w.depths.size
  deepest : w'.deepest = w.deepest
  keeps : ∀ pc d, w.depthAt pc = some d → w'.depthAt pc = some d
  pending : ∀ pc ∈ w.pending, pc ∈ w'.pending
  adds : ∀ pc d, w'.depthAt pc = some d →
    w.depthAt pc = some d ∨ (d = depth ∧ pc ∈ w'.pending)
  effort : w'.effort = w.effort

private theorem extends_refl (depth : Nat) (w : DepthWalk) : w.Extends depth w :=
  ⟨rfl, rfl, fun _ _ h ↦ h, fun _ h ↦ h, fun _ _ h ↦ .inl h, rfl⟩

private theorem extends_trans {depth : Nat} {u v w : DepthWalk} (h : u.Extends depth v)
    (h' : v.Extends depth w) : u.Extends depth w := by
  refine ⟨h'.size.trans h.size, h'.deepest.trans h.deepest, fun pc d hd ↦ h'.keeps pc d
    (h.keeps pc d hd), fun pc hp ↦ h'.pending pc (h.pending pc hp), ?_, h'.effort.trans h.effort⟩
  intro pc d hd
  rcases h'.adds pc d hd with hv | hnew
  · rcases h.adds pc d hv with hu | ⟨hdepth, hp⟩
    · exact .inl hu
    · exact .inr ⟨hdepth, h'.pending pc hp⟩
  · exact .inr hnew

/-- Setting the depth of an instruction of the code changes that depth only. -/
theorem depthAt_set (w : DepthWalk) {pc : Nat} (hpc : pc < w.depths.size) (depth n : Nat)
    (pending : List Nat) (deepest : Nat) :
    depthAt ⟨w.depths.setIfInBounds pc (some depth), pending, deepest⟩ n =
      if pc = n then some depth else w.depthAt n := by
  simp only [depthAt, Array.getD_eq_getD_getElem?, Array.getElem?_setIfInBounds, hpc]
  split
  · next h => rfl
  · rfl

private theorem effort_set (w : DepthWalk) {pc : Nat} (hpc : pc < w.depths.size)
    (hnone : w.depthAt pc = none) (depth deepest : Nat) :
    effort ⟨w.depths.setIfInBounds pc (some depth), pc :: w.pending, deepest⟩ = w.effort := by
  have hlen : pc < w.depths.toList.length := by simpa using hpc
  have hget : w.depths.toList[pc] = none := by
    simpa [depthAt, Array.getD_eq_getD_getElem?, hpc] using hnone
  have hpos : 0 < w.depths.toList.count none :=
    List.count_pos_iff.mpr (hget ▸ List.getElem_mem hlen)
  have hset :
      (w.depths.toList.set pc (some depth)).count none + 1 = w.depths.toList.count none := by
    rw [List.count_set hlen, hget, beq_self_eq_true, if_pos rfl, Option.some_beq_none,
      if_neg Bool.false_ne_true]
    omega
  simp only [effort, Array.toList_setIfInBounds, List.length_cons]
  omega

/-- Reaching an instruction of the code gives it the depth and keeps everything else. -/
theorem extends_reach {w w' : DepthWalk} {pc depth : Nat} (hpc : pc < w.depths.size)
    (h : w.reach pc depth = .ok w') : w.Extends depth w' ∧ w'.depthAt pc = some depth := by
  simp only [reach] at h
  split at h
  · next hnone =>
    cases h
    have hset := (depthAt_set w hpc depth · (pc :: w.pending) w.deepest)
    refine ⟨⟨by simp, rfl, ?_, fun n hn ↦ .tail _ hn, ?_, effort_set w hpc hnone depth _⟩, by
      simp [hset]⟩
    · intro n d hd
      have hne : pc ≠ n := by
        rintro rfl
        simp [depthAt, hnone] at hd
      simpa [hset, hne] using hd
    · intro n d hd
      rw [hset] at hd
      split at hd
      · next he =>
        subst he
        cases hd
        exact .inr ⟨rfl, .head _⟩
      · exact .inl hd
  · next found hfound =>
    split at h
    · next he =>
      cases h
      subst he
      exact ⟨extends_refl _ _, hfound⟩
    · cases h

/-- Reaching instructions of the code gives each the depth and keeps everything else. -/
theorem extends_reachAll {w w' : DepthWalk} {depth : Nat} {next : List Nat}
    (hnext : ∀ n ∈ next, n < w.depths.size) (h : w.reachAll depth next = .ok w') :
    w.Extends depth w' ∧ ∀ n ∈ next, w'.depthAt n = some depth := by
  induction next generalizing w with
  | nil =>
    cases h
    exact ⟨extends_refl _ _, by simp⟩
  | cons pc rest ih =>
    simp only [reachAll] at h
    split at h
    · next v hv =>
      obtain ⟨hext, hat⟩ := extends_reach (hnext pc (by simp)) hv
      have hrest : ∀ n ∈ rest, n < v.depths.size := by
        intro n hn
        rw [hext.size]
        exact hnext n (.tail _ hn)
      obtain ⟨hext', hats⟩ := ih hrest h
      refine ⟨extends_trans hext hext', ?_⟩
      intro n hn
      rcases List.mem_cons.mp hn with rfl | hn
      · exact hext'.keeps _ _ hat
      · exact hats n hn
    · cases h

/-- A walk over a code whose visited instructions agree with their successors. -/
structure Sound (code : List Instruction) (w : DepthWalk) : Prop where
  size : w.depths.size = code.length
  start : w.depthAt 0 = some 0
  le_deepest : ∀ pc depth, w.depthAt pc = some depth → depth ≤ w.deepest
  visited : ∀ pc depth, w.depthAt pc = some depth →
    pc ∈ w.pending ∨ ∃ i, code[pc]? = some i ∧
      i.Agrees w.depthAt w.deepest code.length pc depth

/-- Reaching the first instruction of a code is a sound beginning. -/
theorem sound_start {code : List Instruction} (h : 0 < code.length) :
    Sound code (start code.length) := by
  have hat : ∀ pc d, (start code.length).depthAt pc = some d → pc = 0 ∧ d = 0 := by
    intro pc d hd
    simp only [start, depthAt, Array.getD_eq_getD_getElem?, Array.getElem?_setIfInBounds] at hd
    split at hd
    · next h0 => simp_all
    · simp [Array.getElem?_replicate] at hd
      split at hd <;> simp at hd
  refine ⟨by simp [start], by simp [start, depthAt, Array.getD_eq_getD_getElem?, h], ?_, ?_⟩
  · intro pc d hd
    simp [(hat pc d hd).2]
  · intro pc d hd
    simp [(hat pc d hd).1, start]

/-- A walk that has reached the first instruction of a code has at most the code before it. -/
theorem effort_start {code : List Instruction} (h : 0 < code.length) :
    (start code.length).effort = code.length := by
  have hlen : 0 < (List.replicate code.length (none : Option Nat)).length := by simpa using h
  simp only [start, effort, Array.toList_setIfInBounds, Array.toList_replicate,
    List.count_set hlen]
  simp
  omega

private theorem agrees_mono {i : Instruction} {D E : Nat → Option Nat} {b c length pc d : Nat}
    (hDE : ∀ n e, D n = some e → E n = some e) (hbc : b ≤ c) (h : i.Agrees D b length pc d) :
    i.Agrees E c length pc d :=
  ⟨h.pops_le, Nat.le_trans h.behind_le hbc, fun hf ↦ ⟨(h.falls hf).1, hDE _ _ (h.falls hf).2⟩,
    fun t ht ↦ ⟨(h.jumps t ht).1, hDE _ _ (h.jumps t ht).2⟩⟩

/-- Visiting an instruction makes it agree with its successors and costs one unit of effort. -/
theorem sound_visit {code : List Instruction} {w w' : DepthWalk} {pc depth : Nat}
    {pending : List Nat} {i : Instruction} (hw : Sound code w) (hp : w.pending = pc :: pending)
    (hi : code[pc]? = some i) (hd : w.depthAt pc = some depth)
    (hsuits : ∀ t, i.target? = some t → t.toNat < code.length)
    (h : visit { w with pending } i pc depth code.length = .ok w') :
    Sound code w' ∧ w'.effort + 1 = w.effort := by
  simp only [visit] at h
  split at h
  · cases h
  · next hpops =>
    split at h
    · cases h
    · next next hnext =>
      obtain ⟨hfalls, hjumps, hin⟩ := Instruction.mem_successors hnext
      have hlt : ∀ n ∈ next, n < w.depths.size := by
        intro n hn
        rw [hw.size]
        rcases hin n hn with hn | ⟨t, ht, rfl⟩
        · exact hn
        · exact hsuits t ht
      obtain ⟨hext, hat⟩ := extends_reachAll (w := ⟨w.depths, pending, _⟩) hlt h
      have hdeep : w'.deepest = max w.deepest (i.depthBehind depth) := hext.deepest
      have hself : i.Agrees w'.depthAt w'.deepest code.length pc depth :=
        ⟨by omega, by omega, fun hf ↦ ⟨(hfalls hf).1, hat _ (hfalls hf).2⟩,
          fun t ht ↦ ⟨hsuits t ht, hat _ (hjumps t ht)⟩⟩
      have hkeeps : ∀ n e, w.depthAt n = some e → w'.depthAt n = some e := hext.keeps
      refine ⟨⟨hext.size.trans hw.size, hkeeps _ _ hw.start, ?_, ?_⟩, ?_⟩
      · intro n e hn
        rcases hext.adds n e hn with hold | ⟨rfl, _⟩
        · have := hw.le_deepest n e hold
          omega
        · rw [hdeep]
          exact Nat.le_max_right _ _
      · intro n e hn
        rcases hext.adds n e hn with hold | ⟨_, hpend⟩
        · rcases hw.visited n e hold with hpend | ⟨j, hj, hagree⟩
          · rw [hp] at hpend
            rcases List.mem_cons.mp hpend with rfl | hpend
            · have he : some e = some depth := hold.symm.trans hd
              cases he
              exact .inr ⟨i, hi, hself⟩
            · exact .inl (hext.pending n hpend)
          · exact .inr ⟨j, hj, agrees_mono hkeeps (by omega) hagree⟩
        · exact .inl hpend
      · have heffort := hext.effort
        simp only [effort, hp, List.length_cons] at heffort ⊢
        omega

/-- A sound walk with fuel enough ends with no instruction pending, and so with agreeing depths. -/
theorem depthsAgree_run {code : List Instruction} {fuel : Nat} {w w' : DepthWalk}
    (hsuits : ∀ i ∈ code, ∀ t, i.target? = some t → t.toNat < code.length) (hw : Sound code w)
    (hfuel : w.effort ≤ fuel) (h : run code.toArray fuel w = .ok w') :
    DepthsAgree code w'.depthAt w'.deepest := by
  induction fuel generalizing w with
  | zero =>
    cases h
    have hnil : w'.pending = [] := by
      apply List.eq_nil_of_length_eq_zero
      simp only [DepthWalk.effort] at hfuel
      omega
    refine ⟨hw.start, hw.le_deepest, fun pc d hd ↦ ?_⟩
    simpa [hnil] using hw.visited pc d hd
  | succ fuel ih =>
    simp only [run] at h
    split at h
    · next hnil =>
      cases h
      refine ⟨hw.start, hw.le_deepest, fun pc d hd ↦ ?_⟩
      simpa [hnil] using hw.visited pc d hd
    · next pc pending hp =>
      split at h
      · next i depth hi hd =>
        rw [List.getElem?_toArray] at hi
        split at h
        · next v hv =>
          rw [List.size_toArray] at hv
          obtain ⟨hs, he⟩ := sound_visit hw hp hi hd (hsuits i (List.mem_of_getElem? hi)) hv
          exact ih hs (by omega) h
        · cases h
      · next hne =>
        -- A pending index without instruction or depth is dropped; nothing else depends on it.
        have hs : Sound code { w with pending } := by
          refine ⟨hw.size, hw.start, hw.le_deepest, ?_⟩
          intro n e hn
          rcases hw.visited n e hn with hpend | hagree
          · rw [hp] at hpend
            rcases List.mem_cons.mp hpend with rfl | hpend
            · have hlt : n < code.length := by
                by_cases hlt : n < code.length
                · exact hlt
                · rw [← hw.size] at hlt
                  simp [depthAt, Array.getD_eq_getD_getElem?, hlt] at hn
              exact False.elim (hne code[n] e (by simp [hlt]) hn)
            · exact .inl hpend
          · exact .inr hagree
        refine ih hs ?_ h
        simp only [effort, hp, List.length_cons] at hfuel ⊢
        omega

end DepthWalk

/-- What is known of a body that passes: its frame covers the arguments, its operands suit the
method and its instructions have agreeing depths up to the one that was computed. -/
structure Body.Checked (b : Body) (slots : Nat) (returnsValue : Bool) (depths : Nat → Option Nat)
    (reached : UInt16) : Prop where
  slots_le : slots ≤ b.maxLocals.toNat
  suits : ∀ i ∈ b.code, i.Suits b.maxLocals returnsValue b.code.length
  agree : DepthsAgree b.code depths reached.toNat

/-- A body whose depth can be computed has agreeing depths. -/
theorem Body.checked_of_reachedDepth {b : Body} {slots : Nat} {returnsValue : Bool}
    {reached : UInt16} (h : b.reachedDepth slots returnsValue = .ok reached) :
    ∃ depths, b.Checked slots returnsValue depths reached := by
  simp only [reachedDepth] at h
  split at h
  · cases h
  · next hne =>
    split at h
    · cases h
    · next hslots =>
      split at h
      · cases h
      · next hsuits =>
        split at h
        · cases h
        · next w hw =>
          split at h
          · next hlt =>
            cases h
            have hsuits := suits_of_checkAllOperands (by simpa using hsuits)
            have hpos : 0 < b.code.length := by
              cases hc : b.code with
              | nil => simp [hc] at hne
              | cons => simp
            have hagree := DepthWalk.depthsAgree_run (fun i hi t ht ↦ (hsuits i hi).target t ht)
              (DepthWalk.sound_start hpos) (Nat.le_of_eq (DepthWalk.effort_start hpos))
              (by simpa using hw)
            refine ⟨w.depthAt, by omega, hsuits, ?_⟩
            rwa [UInt16.toNat_ofNat_of_lt' hlt]
          · cases h

end Hotswap
