import Hotswap.Class.Verify
import Hotswap.Proofs.MovedDepths

/-!
# Stack depths of woven code

A body that verifies still does so after a snippet was woven in that has agreeing depths of its own.
The depths of the body move with its instructions, and those of the snippet stand above the depth at
which it is entered, once before the whole code or once before each return. Every edge of the woven
code is one of the body, one of a snippet, or one of those that join them.
-/

namespace Hotswap

/-! ### Before the code -/

/-- The depths of a snippet and, behind it, those of the body. -/
def prefixedDepths (snippetDepths depths : Nat → Option Nat) (snippetLength pc : Nat) :
    Option Nat :=
  if pc < snippetLength then snippetDepths pc else depths (pc - snippetLength)

section

variable {b b' : Body} {snippet : List Instruction} {slots : Nat} {returnsValue : Bool}
  {depths snippetDepths : Nat → Option Nat} {reached : UInt16} {deepest : Nat}

/-- A body with agreeing depths has its first instruction. -/
theorem Body.Checked.code_pos (h : b.Checked slots returnsValue depths reached) :
    0 < b.code.length :=
  DepthWalk.lt_length_of_agree h.agree h.agree.start

/-- A body that was moved behind a snippet stands there. -/
theorem Body.Checked.stands_behind (hb : b.Checked slots returnsValue depths reached)
    (hsmall : snippet.length + b.code.length < UInt32.size) {pc : Nat} (hpc : pc < b.code.length) :
    ∃ i : Instruction, i.Stands (snippet ++ relocate snippet.length b.code)
      (prefixedDepths snippetDepths depths snippet.length) (max reached.toNat deepest) b.maxLocals
      returnsValue (snippet.length + pc) := by
  obtain ⟨i, hi⟩ : ∃ i, b.code[pc]? = some i := ⟨_, List.getElem?_eq_getElem hpc⟩
  have hlength : (snippet ++ relocate snippet.length b.code).length =
      snippet.length + b.code.length := by
    rw [List.length_append, length_relocate]
  have hbehind : ∀ n, prefixedDepths snippetDepths depths snippet.length (snippet.length + n) =
      depths n := by
    intro n
    rw [prefixedDepths, if_neg (by omega), Nat.add_sub_cancel_left]
  have htarget : ∀ t : UInt32, t.toNat < b.code.length →
      (t + UInt32.ofNat snippet.length).toNat = snippet.length + t.toNat := by
    intro t ht
    exact toNat_add_ofNat (Nat.lt_of_le_of_lt (by omega) hsmall)
  have hsuits := hb.suits i (List.mem_of_getElem? hi)
  refine ⟨i.mapTarget (· + UInt32.ofNat snippet.length), ?_⟩
  constructor
  case at_index =>
    rw [List.getElem?_append_right (by omega), Nat.add_sub_cancel_left, relocate,
      List.getElem?_map, hi, Option.map_some]
  case suits =>
    apply hsuits.mapTarget (UInt16.le_refl _)
    intro t ht
    have hlt := hsuits.target t ht
    rw [htarget t hlt, hlength]
    omega
  case le_bound =>
    intro depth hd
    rw [hbehind] at hd
    have := hb.agree.le_bound pc depth hd
    omega
  case agrees =>
    intro depth hd
    rw [hbehind] at hd
    obtain ⟨j, hj, hagrees⟩ := hb.agree.agrees pc depth hd
    obtain rfl : i = j := Option.some.inj (hi.symm.trans hj)
    apply hagrees.mapTarget 0 (Nat.le_max_left reached.toNat deepest)
    · intro _ hlt hnext
      rw [hlength, Nat.add_assoc, hbehind]
      exact ⟨by omega, hnext⟩
    · intro t ht hd
      have hlt := hsuits.target t ht
      rw [htarget t hlt, hlength, hbehind]
      exact ⟨by omega, hd⟩

/-- A body with a snippet in front of it reaches the greater of the two depths at most. -/
theorem Body.Checked.reachedDepth_insertBefore_le
    (hb : b.Checked slots returnsValue depths reached)
    (hs : b.Admits snippet returnsValue snippetDepths deepest)
    (hdeepest : deepest < UInt16.size) (h : b.insertBefore snippet = .ok b') :
    ∃ r, b'.reachedDepth slots returnsValue = .ok r ∧ r.toNat ≤ max reached.toNat deepest := by
  obtain ⟨-, hsmall, rfl⟩ := Body.insertBefore_eq_ok.mp h
  have hpos := hb.code_pos
  have hlength : (snippet ++ relocate snippet.length b.code).length =
      snippet.length + b.code.length := by
    rw [List.length_append, length_relocate]
  have hjoin : ∀ pc ≤ snippet.length,
      prefixedDepths snippetDepths depths snippet.length pc =
        above (some 0) (withExit snippetDepths snippet.length) pc := by
    intro pc hpc
    rw [prefixedDepths, above, withExit, Option.bind_some]
    by_cases hlt : pc < snippet.length
    · rw [if_pos hlt, if_neg (by omega)]
      cases snippetDepths pc <;> rfl
    · obtain rfl : pc = snippet.length := by omega
      rw [if_neg hlt, if_pos rfl, Nat.sub_self, hb.agree.start]
      rfl
  have hcode : SnippetAt (snippet ++ relocate snippet.length b.code) snippet 0 := by
    intro n i hi
    have hid : (· + UInt32.ofNat 0) = (id : UInt32 → UInt32) := funext UInt32.add_zero
    rw [hid, Instruction.mapTarget_id, Nat.zero_add,
      List.getElem?_append_left (List.getElem?_eq_some_iff.mp hi).1, hi]
  have hstart : prefixedDepths snippetDepths depths snippet.length 0 = some 0 := by
    rw [hjoin 0 (Nat.zero_le _), above_of_zero hs.withExit.start]
  have hlt : ∀ pc depth, prefixedDepths snippetDepths depths snippet.length pc = some depth →
      pc < (snippet ++ relocate snippet.length b.code).length := by
    intro pc depth hd
    rw [prefixedDepths] at hd
    split at hd
    · omega
    · have := DepthWalk.lt_length_of_agree hb.agree hd
      omega
  have hstands : ∀ pc < (snippet ++ relocate snippet.length b.code).length,
      ∃ i : Instruction, i.Stands (snippet ++ relocate snippet.length b.code)
        (prefixedDepths snippetDepths depths snippet.length) (max reached.toNat deepest)
        b.maxLocals returnsValue pc := by
    intro pc hpc
    by_cases hbefore : pc < snippet.length
    · rw [← Nat.zero_add pc]
      apply hs.withExit.stands hcode (UInt16.le_refl _) (by omega) (by omega) _ _ hbefore
      · exact some 0
      · intro n hn
        rw [Nat.zero_add]
        exact hjoin n hn
      · rintro base ⟨⟩
        exact Nat.le_max_right _ _
    · obtain ⟨n, rfl⟩ := Nat.exists_eq_add_of_le (Nat.le_of_not_lt hbefore)
      exact hb.stands_behind hsmall (by omega)
  have hbound : max reached.toNat deepest < UInt16.size :=
    Nat.max_lt.mpr ⟨reached.toNat_lt, hdeepest⟩
  exact Body.reachedDepth_le_of_stands hb.slots_le hstart hlt hstands hbound

end

/-! ### Before each return -/

/-- The depths of the instructions that stand for an instruction with a depth. -/
def Instruction.expandedDepths (snippetDepths : Nat → Option Nat) (snippetLength : Nat)
    (depth : Option Nat) : Instruction → List (Option Nat)
  | ret => (List.range (snippetLength + 1)).map (above depth snippetDepths)
  | retValue => depth ::
      (List.range (snippetLength + 1)).map (above (depth.map (· - 1)) snippetDepths) ++ [depth]
  | _ => [depth]

theorem Instruction.length_expandedDepths (snippetDepths : Nat → Option Nat) (snippetLength : Nat)
    (depth : Option Nat) (i : Instruction) :
    (i.expandedDepths snippetDepths snippetLength depth).length =
      i.expandedLength snippetLength := by
  cases i <;> simp [expandedDepths, expandedLength]

/-- At least one instruction stands for an instruction. -/
theorem Instruction.expandedLength_pos (snippetLength : Nat) (i : Instruction) :
    0 < i.expandedLength snippetLength := by
  cases i <;> simp [expandedLength]

/-- The depths of the instructions that stand for each instruction of a code, in turn. -/
def wovenDepths (snippetDepths depths : Nat → Option Nat) (snippetLength : Nat)
    (code : List Instruction) (pc : Nat) : Option Nat :=
  (code.mapIdx fun k i ↦ i.expandedDepths snippetDepths snippetLength (depths k)).flatten.getD pc
    none

section

variable {snippetDepths depths : Nat → Option Nat} {snippetLength : Nat} {code : List Instruction}
  {k : Nat}

private theorem map_length_expandedDepths :
    (code.mapIdx fun k i ↦ i.expandedDepths snippetDepths snippetLength (depths k)).map
      List.length = code.map (Instruction.expandedLength snippetLength) := by
  apply List.ext_getElem?
  intro k
  rw [List.getElem?_map, List.getElem?_mapIdx, List.getElem?_map, Option.map_map]
  cases code[k]? with
  | none => rfl
  | some i => exact congrArg some (i.length_expandedDepths _ _ _)

/-- Depths are found where the instructions that they belong to stand. -/
theorem wovenDepths_startOf_add {i : Instruction} (hi : code[k]? = some i) {n : Nat}
    (hn : n < i.expandedLength snippetLength) :
    wovenDepths snippetDepths depths snippetLength code (startOf snippetLength code k + n) =
      (i.expandedDepths snippetDepths snippetLength (depths k)).getD n none := by
  have hk : k ≤ code.length := Nat.le_of_lt (List.getElem?_eq_some_iff.mp hi).1
  have hpart : (code.mapIdx fun k i ↦
      i.expandedDepths snippetDepths snippetLength (depths k))[k]? =
        some (i.expandedDepths snippetDepths snippetLength (depths k)) := by
    rw [List.getElem?_mapIdx, hi, Option.map_some]
  have hsum : startOf snippetLength code k = (((code.mapIdx fun k i ↦
      i.expandedDepths snippetDepths snippetLength (depths k)).take k).map List.length).sum := by
    rw [startOf_eq_sum hk, List.map_take, List.map_take, map_length_expandedDepths]
  rw [wovenDepths, List.getD_eq_getElem?_getD, hsum, getElem?_flatten_part hpart
    (by rwa [Instruction.length_expandedDepths]), List.getD_eq_getElem?_getD]

/-- No depth is found behind the woven code. -/
theorem lt_of_wovenDepths {pc depth : Nat}
    (h : wovenDepths snippetDepths depths snippetLength code pc = some depth) :
    pc < startOf snippetLength code code.length := by
  rw [wovenDepths, List.getD_eq_getElem?_getD] at h
  by_cases hlt : pc < (code.mapIdx fun k i ↦
      i.expandedDepths snippetDepths snippetLength (depths k)).flatten.length
  · rw [List.length_flatten, map_length_expandedDepths] at hlt
    rwa [startOf_eq_sum (Nat.le_refl _), List.take_length]
  · rw [List.getElem?_eq_none (Nat.le_of_not_lt hlt)] at h
    cases h

theorem wovenDepths_ret (hi : code[k]? = some .ret) {n : Nat} (hn : n ≤ snippetLength) :
    wovenDepths snippetDepths depths snippetLength code (startOf snippetLength code k + n) =
      above (depths k) snippetDepths n := by
  rw [wovenDepths_startOf_add hi (by simp [Instruction.expandedLength]; omega),
    Instruction.expandedDepths, List.getD_eq_getElem?_getD, List.getElem?_map,
    List.getElem?_range (by omega)]
  rfl

theorem wovenDepths_retValue (hi : code[k]? = some .retValue) {n : Nat} (hn : n ≤ snippetLength) :
    wovenDepths snippetDepths depths snippetLength code (startOf snippetLength code k + 1 + n) =
      above ((depths k).map (· - 1)) snippetDepths n := by
  rw [Nat.add_assoc, Nat.add_comm 1,
    wovenDepths_startOf_add hi (by simp [Instruction.expandedLength]; omega),
    Instruction.expandedDepths, List.cons_append, List.getD_eq_getElem?_getD,
    List.getElem?_cons_succ, List.getElem?_append_left (by simp; omega), List.getElem?_map,
    List.getElem?_range (by omega)]
  rfl

theorem wovenDepths_retValue_last (hi : code[k]? = some .retValue) :
    wovenDepths snippetDepths depths snippetLength code
      (startOf snippetLength code k + 1 + snippetLength + 1) = depths k := by
  have hpos : startOf snippetLength code k + 1 + snippetLength + 1 =
      startOf snippetLength code k + (snippetLength + 1 + 1) := by omega
  rw [hpos, wovenDepths_startOf_add hi (by simp [Instruction.expandedLength]),
    Instruction.expandedDepths, List.cons_append, List.getD_eq_getElem?_getD,
    List.getElem?_cons_succ, List.getElem?_append_right (by simp)]
  simp

/-- The instructions that stand for an instruction are entered with its depth. -/
theorem wovenDepths_startOf (hstart : snippetDepths 0 = some 0) {i : Instruction}
    (hi : code[k]? = some i) :
    wovenDepths snippetDepths depths snippetLength code (startOf snippetLength code k) =
      depths k := by
  have hpos := Instruction.expandedLength_pos snippetLength i
  have hfirst : wovenDepths snippetDepths depths snippetLength code
      (startOf snippetLength code k + 0) =
        (i.expandedDepths snippetDepths snippetLength (depths k)).getD 0 none :=
    wovenDepths_startOf_add hi hpos
  cases i with
  | ret =>
    rw [← Nat.add_zero (startOf snippetLength code k), wovenDepths_ret hi (Nat.zero_le _),
      above_of_zero hstart]
  | _ => exact hfirst

end

section

variable {b b' : Body} {snippet : List Instruction} {slots : Nat} {returnsValue : Bool}
  {depths snippetDepths : Nat → Option Nat} {reached : UInt16} {deepest : Nat} {k : Nat}

/-- Weaving a snippet in takes away no local. -/
theorem Body.Woven.maxLocals_le (hw : b.Woven b' snippet) : b.maxLocals ≤ b'.maxLocals := by
  have := hw.maxLocals
  rw [UInt16.le_iff_toNat_le]
  omega

/-- Where a value is returned, weaving a snippet in adds the local that the value waits in. -/
theorem Body.Woven.spill_lt (hw : b.Woven b' snippet) (hi : b.code[k]? = some .retValue) :
    b.maxLocals < b'.maxLocals := by
  have hreturns : b.returnsSomewhere = true := by
    rw [Body.returnsSomewhere, List.contains_iff_mem]
    exact List.mem_of_getElem? hi
  have hlocals := hw.maxLocals
  rw [if_pos hreturns] at hlocals
  rw [UInt16.lt_iff_toNat_lt]
  omega

/-- A return stands wherever the depth is that of the return in the body. -/
theorem Instruction.stands_of_leave {i : Instruction} {pc : Nat}
    (hb : b.Checked slots returnsValue depths reached) (hi : b.code[k]? = some i)
    (hflow : i.flow = .leave) {code : List Instruction} {depths' : Nat → Option Nat} {bound : Nat}
    {maxLocals : UInt16} (hcode : code[pc]? = some i) (hdepth : depths' pc = depths k)
    (hlocals : b.maxLocals ≤ maxLocals) (hbound : reached.toNat ≤ bound) :
    i.Stands code depths' bound maxLocals returnsValue pc := by
  have htarget : i.target? = none := by cases i <;> simp_all [flow, target?]
  have hfalls : i.fallsThrough = false := by rw [fallsThrough, hflow]
  have hsuits := hb.suits i (List.mem_of_getElem? hi)
  constructor
  case at_index => exact hcode
  case suits =>
    rw [← mapTarget_id i]
    apply hsuits.mapTarget hlocals
    simp [htarget]
  case le_bound =>
    intro depth hd
    rw [hdepth] at hd
    exact Nat.le_trans (hb.agree.le_bound k depth hd) hbound
  case agrees =>
    intro depth hd
    rw [hdepth] at hd
    obtain ⟨j, hj, hagrees⟩ := hb.agree.agrees k depth hd
    obtain rfl : i = j := Option.some.inj (hi.symm.trans hj)
    rw [← mapTarget_id i]
    apply hagrees.mapTarget 0 hbound
    · simp [hfalls]
    · simp [htarget]

namespace Body.Checked

/-- An instruction that does not leave the method stands where the woven code has it. -/
theorem stands_of_flow (hb : b.Checked slots returnsValue depths reached)
    (hw : b.Woven b' snippet) (hstart : snippetDepths 0 = some 0) {i : Instruction}
    (hi : b.code[k]? = some i) (hflow : i.flow ≠ .leave) :
    ∃ j : Instruction, j.Stands b'.code (wovenDepths snippetDepths depths snippet.length b.code)
      (reached.toNat + deepest) b'.maxLocals returnsValue
      (startOf snippet.length b.code k) := by
  obtain ⟨hat, hin⟩ := hw.getElem?_of_flow hi hflow
  -- A target is entered where its own instructions begin, whatever stands for it.
  have hentry : ∀ n < b.code.length,
      wovenDepths snippetDepths depths snippet.length b.code (startOf snippet.length b.code n) =
        depths n :=
    fun n hn ↦ wovenDepths_startOf hstart (List.getElem?_eq_getElem hn)
  have hbefore : ∀ n < b.code.length, startOf snippet.length b.code n < b'.code.length := by
    intro n hn
    have hnext : startOf snippet.length b.code (n + 1) =
        startOf snippet.length b.code n + b.code[n].expandedLength snippet.length :=
      startOf_succ (List.getElem?_eq_getElem hn)
    have hpos := Instruction.expandedLength_pos snippet.length b.code[n]
    have hle : startOf snippet.length b.code (n + 1) ≤ b'.code.length := hw.startOf_le_length hn
    omega
  have htarget : ∀ t, i.target? = some t →
      (UInt32.ofNat (startOf snippet.length b.code t.toNat)).toNat =
        startOf snippet.length b.code t.toNat :=
    fun t ht ↦ hw.toNat_ofNat (Nat.le_of_lt (hbefore _ (hin t ht)))
  have hk : k < b.code.length := (List.getElem?_eq_some_iff.mp hi).1
  refine ⟨_, hat, ?_, ?_, ?_⟩
  · apply (hb.suits i (List.mem_of_getElem? hi)).mapTarget hw.maxLocals_le
    intro t ht
    rw [htarget t ht]
    exact hbefore _ (hin t ht)
  · intro depth hd
    rw [hentry k hk] at hd
    have := hb.agree.le_bound k depth hd
    omega
  · intro depth hd
    rw [hentry k hk] at hd
    obtain ⟨j, hj, hagrees⟩ := hb.agree.agrees k depth hd
    obtain rfl : i = j := Option.some.inj (hi.symm.trans hj)
    apply hagrees.mapTarget 0 (Nat.le_add_right _ _)
    · intro _ hlt hnext
      have hlength : i.expandedLength snippet.length = 1 := by
        cases i <;> first | rfl | exact absurd rfl hflow
      rw [← hlength, ← startOf_succ hi, hentry (k + 1) hlt]
      exact ⟨hbefore (k + 1) hlt, hnext⟩
    · intro t ht hd
      rw [htarget t ht, hentry _ (hin t ht)]
      exact ⟨hbefore _ (hin t ht), hd⟩

/-- The instructions that stand for a return without a value do stand. -/
theorem stands_of_ret (hb : b.Checked slots returnsValue depths reached)
    (hs : b.Admits snippet returnsValue snippetDepths deepest)
    (hexit : snippetDepths snippet.length = some 0) (hw : b.Woven b' snippet)
    (hi : b.code[k]? = some .ret) {n : Nat} (hn : n ≤ snippet.length) :
    ∃ j : Instruction, j.Stands b'.code (wovenDepths snippetDepths depths snippet.length b.code)
      (reached.toNat + deepest) b'.maxLocals returnsValue
      (startOf snippet.length b.code k + n) := by
  obtain ⟨hsnippet, hret⟩ := hw.ret hi
  by_cases hbefore : n < snippet.length
  · apply hs.stands hsnippet hw.maxLocals_le (List.getElem?_eq_some_iff.mp hret).1 hw.small
      (fun m hm ↦ wovenDepths_ret hi hm) _ hbefore
    intro base hbase
    have := hb.agree.le_bound k base hbase
    omega
  · obtain rfl : n = snippet.length := by omega
    refine ⟨.ret, Instruction.stands_of_leave hb hi rfl hret ?_ hw.maxLocals_le (by omega)⟩
    rw [wovenDepths_ret hi (Nat.le_refl _), above_of_zero hexit]

/-- The instructions that stand for a return with a value do stand. -/
theorem stands_of_retValue (hb : b.Checked slots returnsValue depths reached)
    (hs : b.Admits snippet returnsValue snippetDepths deepest)
    (hexit : snippetDepths snippet.length = some 0) (hw : b.Woven b' snippet)
    (hi : b.code[k]? = some .retValue) {n : Nat} (hn : n ≤ snippet.length + 2) :
    ∃ j : Instruction, j.Stands b'.code (wovenDepths snippetDepths depths snippet.length b.code)
      (reached.toNat + deepest) b'.maxLocals returnsValue
      (startOf snippet.length b.code k + n) := by
  obtain ⟨hstore, hsnippet, hload, hret⟩ := hw.retValue hi
  have hin : startOf snippet.length b.code k + 1 + snippet.length + 1 < b'.code.length :=
    (List.getElem?_eq_some_iff.mp hret).1
  have hspill := hw.spill_lt hi
  have hreached : ∀ depth, depths k = some depth → 1 ≤ depth ∧ depth ≤ reached.toNat := by
    intro depth hd
    obtain ⟨j, hj, hagrees⟩ := hb.agree.agrees k depth hd
    obtain rfl : Instruction.retValue = j := Option.some.inj (hi.symm.trans hj)
    exact ⟨hagrees.pops_le, hb.agree.le_bound k depth hd⟩
  -- The value goes to its local, so that the snippet runs with one value less on the stack.
  have hentry : wovenDepths snippetDepths depths snippet.length b.code
      (startOf snippet.length b.code k) = depths k := wovenDepths_startOf hs.start hi
  have hwaiting : ∀ m ≤ snippet.length, snippetDepths m = some 0 →
      wovenDepths snippetDepths depths snippet.length b.code
        (startOf snippet.length b.code k + 1 + m) = (depths k).map (· - 1) := by
    intro m hm hzero
    rw [wovenDepths_retValue hi hm, above_of_zero hzero]
  have hlast : wovenDepths snippetDepths depths snippet.length b.code
      (startOf snippet.length b.code k + 1 + snippet.length + 1) = depths k :=
    wovenDepths_retValue_last hi
  rcases Nat.lt_trichotomy n (snippet.length + 1) with hlt | rfl | hlt
  · cases n with
    | zero =>
      refine ⟨.store b.maxLocals, hstore, ?_, ?_, ?_⟩
      · exact Instruction.suits_store hspill _ _
      · intro depth hd
        rw [Nat.add_zero, hentry] at hd
        have := hreached depth hd
        omega
      · intro depth hd
        rw [Nat.add_zero, hentry] at hd
        have := hreached depth hd
        have hfirst := hwaiting 0 (Nat.zero_le _) hs.start
        rw [hd] at hfirst
        have hbehind : (Instruction.store b.maxLocals).depthBehind depth = depth - 1 := rfl
        exact Instruction.agrees_of_sequential rfl this.1 (by omega) (by omega) hfirst
    | succ m =>
      rw [Nat.add_comm m, ← Nat.add_assoc]
      apply hs.stands hsnippet hw.maxLocals_le (by omega) hw.small
        (fun p hp ↦ wovenDepths_retValue hi hp) _ (by omega)
      intro base hbase
      obtain ⟨depth, hd, rfl⟩ := Option.map_eq_some_iff.mp hbase
      have := hreached depth hd
      omega
  · rw [Nat.add_comm snippet.length, ← Nat.add_assoc]
    refine ⟨.load b.maxLocals, hload, ?_, ?_, ?_⟩
    · exact Instruction.suits_load hspill _ _
    · intro depth hd
      rw [hwaiting _ (Nat.le_refl _) hexit] at hd
      obtain ⟨whole, hwhole, rfl⟩ := Option.map_eq_some_iff.mp hd
      have := hreached whole hwhole
      omega
    · intro depth hd
      rw [hwaiting _ (Nat.le_refl _) hexit] at hd
      obtain ⟨whole, hwhole, rfl⟩ := Option.map_eq_some_iff.mp hd
      have := hreached whole hwhole
      have hbehind : (Instruction.load b.maxLocals).depthBehind (whole - 1) = whole :=
        Nat.sub_add_cancel this.1
      apply Instruction.agrees_of_sequential rfl (Nat.zero_le _) (by omega) hin
      rw [hbehind, hlast, hwhole]
  · obtain rfl : n = 1 + snippet.length + 1 := by omega
    rw [← Nat.add_assoc, ← Nat.add_assoc]
    exact ⟨.retValue, Instruction.stands_of_leave hb hi rfl hret hlast hw.maxLocals_le (by omega)⟩

/-- A body with a snippet before each return reaches the sum of the two depths at most. -/
theorem reachedDepth_insertAfter_le (hb : b.Checked slots returnsValue depths reached)
    (hs : b.Admits snippet returnsValue snippetDepths deepest)
    (hbound : reached.toNat + deepest < UInt16.size) (h : b.insertAfter snippet = .ok b') :
    ∃ r, b'.reachedDepth slots returnsValue = .ok r ∧ r.toNat ≤ reached.toNat + deepest := by
  have hw := Body.woven_insertAfter h
  have hs' := hs.withExit
  have hexit : withExit snippetDepths snippet.length snippet.length = some 0 := if_pos rfl
  have hslots : slots ≤ b'.maxLocals.toNat :=
    Nat.le_trans hb.slots_le (UInt16.le_iff_toNat_le.mp hw.maxLocals_le)
  have hstart : wovenDepths (withExit snippetDepths snippet.length) depths snippet.length b.code
      0 = some 0 := by
    obtain ⟨i, hfirst⟩ : ∃ i, b.code[0]? = some i := ⟨_, List.getElem?_eq_getElem hb.code_pos⟩
    have hentry : wovenDepths (withExit snippetDepths snippet.length) depths snippet.length b.code
        (startOf snippet.length b.code 0) = depths 0 := wovenDepths_startOf hs'.start hfirst
    rw [← hb.agree.start, ← hentry, startOf_zero]
  have hlt : ∀ pc depth, wovenDepths (withExit snippetDepths snippet.length) depths snippet.length
      b.code pc = some depth → pc < b'.code.length := by
    intro pc depth hd
    rw [hw.length]
    exact lt_of_wovenDepths hd
  refine Body.reachedDepth_le_of_stands hslots hstart hlt (fun pc hpc ↦ ?_) hbound
  rw [hw.length] at hpc
  obtain ⟨k, i, n, hi, hn, rfl⟩ := exists_startOf hpc
  by_cases hflow : i.flow = .leave
  · cases i with
    | ret => exact hb.stands_of_ret hs' hexit hw hi (Nat.le_of_lt_succ hn)
    | retValue => exact hb.stands_of_retValue hs' hexit hw hi (Nat.le_of_lt_succ hn)
    | _ => cases hflow
  · have hzero : n = 0 := by
      cases i <;> first | exact Nat.lt_one_iff.mp hn | exact absurd rfl hflow
    rw [hzero]
    exact hb.stands_of_flow hw hs'.start hi hflow

end Body.Checked

end

/-! ### Methods -/

namespace ClassDecl

/-- The depth of a method's body is that of the body under the method's slots and kind of return. -/
theorem reachedDepth_eq_ok {c : ClassDecl} {m : MethodDecl} {b : Body} {reached : UInt16} :
    c.reachedDepth m b = .ok reached ↔
      b.reachedDepth m.argumentSlots m.type.returnsValue = .ok reached :=
  mapError_eq_ok

/-- Weaving a snippet with agreeing depths into a body that verifies gives a body that verifies.
Before the code the insertion succeeds when the result has 32 bits of indices, and the body then
reaches the greater of the two depths at most. Before each return it succeeds when a local is left
for the returned value besides, and the body then reaches the sum of the two depths at most. In both
cases the new bound must be one of 16 bits. -/
theorem reachedDepth_woven_le {c : ClassDecl} {m : MethodDecl} {b : Body}
    {snippet : List Instruction} {depths : Nat → Option Nat} {reached : UInt16} {deepest : Nat}
    (hb : c.reachedDepth m b = .ok reached)
    (hs : b.Admits snippet m.type.returnsValue depths deepest) :
    (deepest < UInt16.size → ∀ b', b.insertBefore snippet = .ok b' →
        ∃ r, c.reachedDepth m b' = .ok r ∧ r.toNat ≤ max reached.toNat deepest) ∧
      (reached.toNat + deepest < UInt16.size → ∀ b', b.insertAfter snippet = .ok b' →
        ∃ r, c.reachedDepth m b' = .ok r ∧ r.toNat ≤ reached.toNat + deepest) ∧
      (snippet.length + b.code.length < UInt32.size → ∃ b', b.insertBefore snippet = .ok b') ∧
      (startOf snippet.length b.code b.code.length < UInt32.size →
        (.retValue ∉ b.code ∨ b.maxLocals < 65535) → ∃ b', b.insertAfter snippet = .ok b') := by
  obtain ⟨bodyDepths, hchecked⟩ := Body.checked_of_reachedDepth (reachedDepth_eq_ok.mp hb)
  refine ⟨fun hdeepest b' h ↦ ?_, fun hbound b' h ↦ ?_, fun hlength ↦ ?_, fun hlength hspill ↦ ?_⟩
  · obtain ⟨r, hr, hle⟩ := hchecked.reachedDepth_insertBefore_le hs hdeepest h
    exact ⟨r, reachedDepth_eq_ok.mpr hr, hle⟩
  · obtain ⟨r, hr, hle⟩ := hchecked.reachedDepth_insertAfter_le hs hbound h
    exact ⟨r, reachedDepth_eq_ok.mpr hr, hle⟩
  · exact ⟨_, Body.insertBefore_eq_ok.mpr ⟨checkBranches_of_target_le hs.target_le, hlength, rfl⟩⟩
  · apply Body.exists_insertAfter hs.target_le (fun i hi ↦ (hchecked.suits i hi).target) _ hlength
    apply hspill.imp_left
    intro hnone
    rw [Body.returnsSomewhere]
    simpa using hnone

/-- A body that returns its argument. -/
def echoBody : Body := ⟨1, 1, [.load 0, .retValue]⟩

/-- A static method with that body. -/
def echo : MethodDecl := ⟨Flag.static, "echo", ⟨[.prim .int], .prim .int⟩, some echoBody⟩

/-- A class with that method. -/
def echoing : ClassDecl := ⟨Flag.visible, "k.Echo", none, [], [echo]⟩

/-- A snippet with a branch to its end and what it finds on the stack. -/
def branchingSnippet : List Instruction := [.const (.int 1), .jumpIf .zero 3, .nop]

/-- The depths of the snippet. -/
def branchingDepths (pc : Nat) : Option Nat := [some 0, some 1, some 0, some 0].getD pc none

/-- A body with one local takes the snippet in. -/
theorem admits_branchingSnippet (code : List Instruction) :
    Body.Admits ⟨1, 1, code⟩ branchingSnippet true branchingDepths 1 := by
  constructor
  case suits => exact suits_of_checkAllOperands (by rfl : checkAllOperands 1 true 4 0 _ = .ok ())
  case start => rfl
  case exit =>
    rintro depth ⟨⟩
    rfl
  case le_deepest =>
    intro pc depth hd
    match pc with
    | 0 | 1 | 2 | 3 => cases hd; decide
    | _ + 4 => cases hd
  case agrees =>
    intro pc i depth hi hd
    match pc with
    | 0 | 2 =>
      cases hi
      cases hd
      exact Instruction.agrees_of_sequential rfl (by decide) (by decide) (by decide) rfl
    | 1 =>
      cases hi
      cases hd
      exact ⟨by decide, by decide, fun _ ↦ ⟨by decide, rfl⟩, by rintro t ⟨⟩; exact ⟨by decide, rfl⟩⟩
    | _ + 3 => cases hi

/-- The class takes the snippet in on both sides of the code. -/
theorem echoing_reachedDepth_woven_le :
    echoing.reachedDepth echo echoBody = .ok 1 ∧
      (∃ b' r, echoBody.insertBefore branchingSnippet = .ok b' ∧
        echoing.reachedDepth echo b' = .ok r ∧ r.toNat ≤ 1) ∧
      ∃ b' r, echoBody.insertAfter branchingSnippet = .ok b' ∧
        echoing.reachedDepth echo b' = .ok r ∧ r.toNat ≤ 2 := by
  have hdepth : echoing.reachedDepth echo echoBody = .ok 1 := reachedDepth_eq_ok.mpr (by cbv)
  obtain ⟨hbefore, hafter, hinsertBefore, hinsertAfter⟩ :=
    reachedDepth_woven_le hdepth (admits_branchingSnippet echoBody.code)
  obtain ⟨before, hb⟩ := hinsertBefore (by decide)
  obtain ⟨after, ha⟩ := hinsertAfter (by decide) (.inr (by decide))
  obtain ⟨r, hr, hle⟩ := hbefore (by decide) before hb
  obtain ⟨r', hr', hle'⟩ := hafter (by decide) after ha
  exact ⟨hdepth, ⟨before, r, hb, hr, hle⟩, after, r', ha, hr', hle'⟩

/-! ### Snippets that are too tall -/

/-- A snippet that pushes so many values and pops them again. -/
def tallSnippet (height : Nat) : List Instruction :=
  List.replicate height (.const .null) ++ List.replicate height .pop

/-- The depths of a tall snippet. -/
def tallDepths (height pc : Nat) : Option Nat :=
  if pc ≤ 2 * height then some (min pc (2 * height - pc)) else none

theorem getElem?_tallSnippet {height pc : Nat} (hpc : pc < 2 * height) :
    (tallSnippet height)[pc]? = some (if pc < height then .const .null else .pop) := by
  rw [tallSnippet]
  split
  · next h => rw [List.getElem?_append_left (by simpa using h), List.getElem?_replicate, if_pos h]
  · next h =>
    rw [List.getElem?_append_right (by simpa using h), List.length_replicate,
      List.getElem?_replicate, if_pos (by omega)]

theorem length_tallSnippet (height : Nat) : (tallSnippet height).length = 2 * height := by
  rw [tallSnippet, List.length_append, List.length_replicate, List.length_replicate]
  omega

/-- Every body takes a tall snippet in, since it uses neither locals nor branches. -/
theorem admits_tallSnippet (b : Body) (returnsValue : Bool) (height : Nat) :
    b.Admits (tallSnippet height) returnsValue (tallDepths height) height := by
  constructor
  case suits =>
    intro i hi
    have hcases : i = .const .null ∨ i = .pop := by
      rcases List.mem_append.mp hi with h | h
      · exact .inl (List.eq_of_mem_replicate h)
      · exact .inr (List.eq_of_mem_replicate h)
    rcases hcases with rfl | rfl <;> constructor <;> nofun
  case start => simp [tallDepths]
  case exit =>
    intro depth hd
    rw [length_tallSnippet, tallDepths, if_pos (Nat.le_refl _)] at hd
    have := Option.some.inj hd
    omega
  case le_deepest =>
    intro pc depth hd
    rw [tallDepths] at hd
    split at hd
    · have := Option.some.inj hd
      omega
    · cases hd
  case agrees =>
    intro pc i depth hi hd
    have hpc := (List.getElem?_eq_some_iff.mp hi).1
    rw [length_tallSnippet] at hpc
    rw [getElem?_tallSnippet hpc, Option.some.injEq] at hi
    rw [tallDepths, if_pos (by omega), Option.some.injEq] at hd
    have hnext : tallDepths height (pc + 1) = some (min (pc + 1) (2 * height - (pc + 1))) :=
      if_pos (by omega)
    rw [length_tallSnippet]
    split at hi
    · subst hi
      have hbehind : (Instruction.const .null).depthBehind depth = depth + 1 := rfl
      apply Instruction.agrees_of_sequential rfl (Nat.zero_le _) (by omega) (by omega)
      rw [hnext, hbehind, Option.some.injEq]
      omega
    · subst hi
      have hbehind : Instruction.pop.depthBehind depth = depth - 1 := rfl
      apply Instruction.agrees_of_sequential rfl
        (show 1 ≤ depth by omega) (by omega) (by omega)
      rw [hnext, hbehind, Option.some.injEq]
      omega

/-- Code that begins with pushing so many values reaches that depth. -/
theorem le_of_depthsAgree_pushes {code : List Instruction} {depths : Nat → Option Nat}
    {bound height : Nat} (h : DepthsAgree code depths bound)
    (hpushes : ∀ pc < height, code[pc]? = some (.const .null)) : height ≤ bound := by
  have hat : ∀ pc ≤ height, depths pc = some pc := by
    intro pc hpc
    induction pc with
    | zero => exact h.start
    | succ pc ih =>
      obtain ⟨i, hi, hagrees⟩ := h.agrees pc pc (ih (by omega))
      rw [hpushes pc (by omega), Option.some.injEq] at hi
      subst hi
      exact (hagrees.falls rfl).2
  exact h.le_bound height height (hat height (Nat.le_refl _))

/-- No body verifies with a snippet in front of it whose height does not fit in 16 bits. -/
theorem insertBefore_tallSnippet_fails (c : ClassDecl) (m : MethodDecl) {b b' : Body} {height : Nat}
    (hheight : UInt16.size ≤ height) (h : b.insertBefore (tallSnippet height) = .ok b')
    (r : UInt16) : c.reachedDepth m b' ≠ .ok r := by
  intro hr
  obtain ⟨-, -, rfl⟩ := Body.insertBefore_eq_ok.mp h
  obtain ⟨depths, hchecked⟩ := Body.checked_of_reachedDepth (reachedDepth_eq_ok.mp hr)
  have hle : height ≤ r.toNat := by
    apply le_of_depthsAgree_pushes hchecked.agree
    intro pc hpc
    rw [List.getElem?_append_left (by rw [length_tallSnippet]; omega),
      getElem?_tallSnippet (by omega), if_pos hpc]
  have := r.toNat_lt
  exact absurd (Nat.lt_of_le_of_lt (Nat.le_trans hheight hle) this) (Nat.lt_irrefl _)

/-- A body that only returns. -/
def idleBody : Body := ⟨0, 0, [.ret]⟩

/-- A static method with that body. -/
def idle : MethodDecl := ⟨Flag.static, "idle", ⟨[], .void⟩, some idleBody⟩

/-- A class with that method. -/
def idling : ClassDecl := ⟨Flag.visible, "k.Idle", none, [], [idle]⟩

/-- Without a bound on the height of the snippet, a body that verifies need not verify any more
with the snippet in front of it. -/
theorem not_reachedDepth_insertBefore_le_of_tall :
    ¬ ∀ (c : ClassDecl) (m : MethodDecl) (b : Body) (snippet : List Instruction)
      (depths : Nat → Option Nat) (reached : UInt16) (deepest : Nat),
      c.reachedDepth m b = .ok reached →
      b.Admits snippet m.type.returnsValue depths deepest →
      (∀ b', b.insertBefore snippet = .ok b' →
        ∃ r, c.reachedDepth m b' = .ok r ∧ r.toNat ≤ max reached.toNat deepest) ∧
      ((.retValue ∉ b.code ∨ b.maxLocals < 65535) → reached.toNat + deepest ≤ 65535 →
        ∀ b', b.insertAfter snippet = .ok b' →
          ∃ r, c.reachedDepth m b' = .ok r ∧ r.toNat ≤ reached.toNat + deepest) := by
  intro hclaim
  have hdepth : idling.reachedDepth idle idleBody = .ok 0 := reachedDepth_eq_ok.mpr (by cbv)
  have hadmits := admits_tallSnippet idleBody idle.type.returnsValue UInt16.size
  have hlength : (tallSnippet UInt16.size).length + idleBody.code.length < UInt32.size := by
    rw [length_tallSnippet]
    decide
  have hinsert := Body.insertBefore_eq_ok.mpr
    ⟨checkBranches_of_target_le hadmits.target_le, hlength, rfl⟩
  obtain ⟨r, hr, -⟩ := (hclaim idling idle idleBody _ _ 0 _ hdepth hadmits).1 _ hinsert
  exact insertBefore_tallSnippet_fails idling idle (Nat.le_refl _) hinsert r hr

end ClassDecl

end Hotswap
