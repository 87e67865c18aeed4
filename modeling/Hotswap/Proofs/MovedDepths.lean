import Hotswap.Proofs.DepthBound
import Hotswap.Proofs.Weaving

/-!
# Stack depths of moved code

A snippet with agreeing depths of its own can be put into other code. Its depths are then added to
the depth at which it is entered, and its instructions keep agreeing with their successors, because
these were moved along with them.
-/

namespace Hotswap

/-- A snippet that a body can take in: its locals are those of the body, its returns those of the
method, its branches lead into it or to its end, and it has agreeing depths of its own that begin
with zero and end with zero. -/
structure Body.Admits (b : Body) (snippet : List Instruction) (returnsValue : Bool)
    (depths : Nat → Option Nat) (deepest : Nat) : Prop where
  suits : ∀ i ∈ snippet, i.Suits b.maxLocals returnsValue (snippet.length + 1)
  start : depths 0 = some 0
  exit : ∀ depth, depths snippet.length = some depth → depth = 0
  le_deepest : ∀ pc depth, depths pc = some depth → depth ≤ deepest
  agrees : ∀ pc i depth, snippet[pc]? = some i → depths pc = some depth →
    i.Agrees depths deepest (snippet.length + 1) pc depth

/-! ### Instructions in their places -/

/-- An instruction stands at an index of a code, suits the method and agrees with its successors if
it has a depth at all. -/
structure Instruction.Stands (i : Instruction) (code : List Instruction)
    (depths : Nat → Option Nat) (bound : Nat) (maxLocals : UInt16) (returnsValue : Bool)
    (pc : Nat) : Prop where
  at_index : code[pc]? = some i
  suits : i.Suits maxLocals returnsValue code.length
  le_bound : ∀ depth, depths pc = some depth → depth ≤ bound
  agrees : ∀ depth, depths pc = some depth → i.Agrees depths bound code.length pc depth

/-- Code in which every index has an instruction that stands there reaches no depth beyond the
bound. -/
theorem Body.reachedDepth_le_of_stands {b : Body} {slots : Nat} {returnsValue : Bool}
    {depths : Nat → Option Nat} {bound : Nat} (hslots : slots ≤ b.maxLocals.toNat)
    (hstart : depths 0 = some 0)
    (hlt : ∀ pc depth, depths pc = some depth → pc < b.code.length)
    (hstands : ∀ pc < b.code.length,
      ∃ i : Instruction, i.Stands b.code depths bound b.maxLocals returnsValue pc)
    (hbound : bound < UInt16.size) :
    ∃ reached, b.reachedDepth slots returnsValue = .ok reached ∧ reached.toNat ≤ bound := by
  have hsuits : ∀ i ∈ b.code, i.Suits b.maxLocals returnsValue b.code.length := by
    intro i hi
    obtain ⟨pc, hpc⟩ := List.mem_iff_getElem?.mp hi
    obtain ⟨j, hj⟩ := hstands pc (List.getElem?_eq_some_iff.mp hpc).1
    have hij : i = j := Option.some.inj (hpc.symm.trans hj.at_index)
    rw [hij]
    exact hj.suits
  have hagree : DepthsAgree b.code depths bound := by
    constructor
    case start => exact hstart
    case le_bound =>
      intro pc depth hd
      obtain ⟨i, hi⟩ := hstands pc (hlt pc depth hd)
      exact hi.le_bound depth hd
    case agrees =>
      intro pc depth hd
      obtain ⟨i, hi⟩ := hstands pc (hlt pc depth hd)
      exact ⟨i, hi.at_index, hi.agrees depth hd⟩
  exact Body.reachedDepth_le_of_depthsAgree hslots hsuits hagree hbound

/-! ### Moving instructions -/

/-- Changing targets keeps whether control goes on to the next instruction. -/
@[simp] theorem Instruction.fallsThrough_mapTarget (f : UInt32 → UInt32) (i : Instruction) :
    (i.mapTarget f).fallsThrough = i.fallsThrough := by
  rw [fallsThrough, fallsThrough, flow_mapTarget]

/-- An instruction with a moved branch suits a method with at least the locals, if its branch still
leads into the code. -/
theorem Instruction.Suits.mapTarget {i : Instruction} {maxLocals maxLocals' : UInt16}
    {returnsValue : Bool} {length length' : Nat} {f : UInt32 → UInt32}
    (h : i.Suits maxLocals returnsValue length) (hlocals : maxLocals ≤ maxLocals')
    (htarget : ∀ t, i.target? = some t → (f t).toNat < length') :
    (i.mapTarget f).Suits maxLocals' returnsValue length' := by
  constructor
  case load =>
    intro index hi
    cases i <;> cases hi
    exact UInt16.lt_of_lt_of_le (h.load _ rfl) hlocals
  case store =>
    intro index hi
    cases i <;> cases hi
    exact UInt16.lt_of_lt_of_le (h.store _ rfl) hlocals
  case ret =>
    intro hi
    cases i <;> cases hi
    exact h.ret rfl
  case retValue =>
    intro hi
    cases i <;> cases hi
    exact h.retValue rfl
  case target =>
    intro t ht
    rw [target?_mapTarget, Option.map_eq_some_iff] at ht
    obtain ⟨u, hu, rfl⟩ := ht
    exact htarget u hu

/-- An instruction keeps agreeing when it is moved to where more lies below its operands, provided
that its successors are moved along with it. -/
theorem Instruction.Agrees.mapTarget {i : Instruction} {depths depths' : Nat → Option Nat}
    {bound bound' length length' pc pc' depth : Nat} {f : UInt32 → UInt32}
    (h : i.Agrees depths bound length pc depth) (below : Nat) (hbound : bound + below ≤ bound')
    (hnext : i.fallsThrough = true → pc + 1 < length →
      depths (pc + 1) = some (i.depthBehind depth) →
        pc' + 1 < length' ∧ depths' (pc' + 1) = some (i.depthBehind depth + below))
    (htarget : ∀ t, i.target? = some t → depths t.toNat = some (i.depthBehind depth) →
      (f t).toNat < length' ∧ depths' (f t).toNat = some (i.depthBehind depth + below)) :
    (i.mapTarget f).Agrees depths' bound' length' pc' (depth + below) := by
  have hpops := h.pops_le
  have hbehind : (i.mapTarget f).depthBehind (depth + below) = i.depthBehind depth + below := by
    rw [depthBehind, depthBehind, pops_mapTarget, pushes_mapTarget]
    omega
  constructor
  case pops_le =>
    rw [pops_mapTarget]
    omega
  case behind_le =>
    have := h.behind_le
    rw [hbehind]
    omega
  case falls =>
    intro hf
    rw [fallsThrough_mapTarget] at hf
    obtain ⟨hlt, hd⟩ := h.falls hf
    rw [hbehind]
    exact hnext hf hlt hd
  case jumps =>
    intro t ht
    rw [target?_mapTarget, Option.map_eq_some_iff] at ht
    obtain ⟨u, hu, rfl⟩ := ht
    rw [hbehind]
    exact htarget u hu (h.jumps u hu).2

/-- A load of a declared local suits every method. -/
theorem Instruction.suits_load {index maxLocals : UInt16} (h : index < maxLocals)
    (returnsValue : Bool) (length : Nat) :
    (Instruction.load index).Suits maxLocals returnsValue length := by
  constructor
  case load =>
    rintro _ ⟨⟩
    exact h
  all_goals nofun

/-- A store to a declared local suits every method. -/
theorem Instruction.suits_store {index maxLocals : UInt16} (h : index < maxLocals)
    (returnsValue : Bool) (length : Nat) :
    (Instruction.store index).Suits maxLocals returnsValue length := by
  constructor
  case store =>
    rintro _ ⟨⟩
    exact h
  all_goals nofun

/-- An instruction that only goes on agrees with the next one. -/
theorem Instruction.agrees_of_sequential {i : Instruction} {depths : Nat → Option Nat}
    {bound length pc depth : Nat} (hflow : i.flow = .sequential) (hpops : i.pops ≤ depth)
    (hbehind : i.depthBehind depth ≤ bound) (hlt : pc + 1 < length)
    (hnext : depths (pc + 1) = some (i.depthBehind depth)) :
    i.Agrees depths bound length pc depth := by
  have htarget : i.target? = none := by
    have := i.isSome_target?
    rw [hflow] at this
    exact Option.not_isSome_iff_eq_none.mp (by simp [this])
  constructor
  case pops_le => exact hpops
  case behind_le => exact hbehind
  case falls => exact fun _ ↦ ⟨hlt, hnext⟩
  case jumps =>
    intro t ht
    rw [htarget] at ht
    cases ht

/-! ### Snippets in their places -/

/-- Depths that begin above a common depth, which is absent where nothing is reached. -/
def above (below : Option Nat) (depths : Nat → Option Nat) (pc : Nat) : Option Nat :=
  below.bind fun base ↦ (depths pc).map (· + base)

theorem above_eq_some_iff {below : Option Nat} {depths : Nat → Option Nat} {pc depth : Nat} :
    above below depths pc = some depth ↔
      ∃ base own, below = some base ∧ depths pc = some own ∧ depth = own + base := by
  rw [above, Option.bind_eq_some_iff]
  constructor
  · rintro ⟨base, hbase, hd⟩
    obtain ⟨own, hown, hd⟩ := Option.map_eq_some_iff.mp hd
    exact ⟨base, own, hbase, hown, hd.symm⟩
  · rintro ⟨base, own, hbase, hown, hd⟩
    refine ⟨base, hbase, ?_⟩
    rw [hown, hd, Option.map_some]

/-- Where the depths above begin with zero, there is just the common depth. -/
theorem above_of_zero {below : Option Nat} {depths : Nat → Option Nat} {pc : Nat}
    (h : depths pc = some 0) : above below depths pc = below := by
  rw [above, h]
  cases below with
  | none => rfl
  | some base => simp

/-- The depths of a snippet in which the end has one even if it cannot be reached. -/
def withExit (depths : Nat → Option Nat) (length : Nat) (pc : Nat) : Option Nat :=
  if pc = length then some 0 else depths pc

namespace Body.Admits

variable {b : Body} {snippet : List Instruction} {returnsValue : Bool}
  {depths : Nat → Option Nat} {deepest : Nat}

/-- The branches of the snippet lead into it or to its end. -/
theorem target_le (h : b.Admits snippet returnsValue depths deepest) :
    ∀ i ∈ snippet, ∀ t, i.target? = some t → t.toNat ≤ snippet.length :=
  fun i hi t ht ↦ Nat.le_of_lt_succ ((h.suits i hi).target t ht)

/-- A depth of the snippet is still there when its end has got one. -/
theorem withExit_eq_some (h : b.Admits snippet returnsValue depths deepest) {pc depth : Nat}
    (hd : depths pc = some depth) : withExit depths snippet.length pc = some depth := by
  rw [withExit]
  split
  · next hpc =>
    rw [hpc] at hd
    rw [h.exit depth hd]
  · exact hd

/-- Where a snippet can be taken in, giving a depth to its end changes nothing else. -/
theorem withExit (h : b.Admits snippet returnsValue depths deepest) :
    b.Admits snippet returnsValue (withExit depths snippet.length) deepest := by
  constructor
  case suits => exact h.suits
  case start => exact h.withExit_eq_some h.start
  case exit =>
    intro depth hd
    rw [Hotswap.withExit, if_pos rfl] at hd
    exact (Option.some.inj hd).symm
  case le_deepest =>
    intro pc depth hd
    rw [Hotswap.withExit] at hd
    split at hd
    · cases hd
      exact Nat.zero_le _
    · exact h.le_deepest pc depth hd
  case agrees =>
    intro pc i depth hi hd
    have hlt := (List.getElem?_eq_some_iff.mp hi).1
    rw [Hotswap.withExit, if_neg (by omega)] at hd
    have ha := h.agrees pc i depth hi hd
    constructor
    case pops_le => exact ha.pops_le
    case behind_le => exact ha.behind_le
    case falls => exact fun hf ↦ ⟨(ha.falls hf).1, h.withExit_eq_some (ha.falls hf).2⟩
    case jumps => exact fun t ht ↦ ⟨(ha.jumps t ht).1, h.withExit_eq_some (ha.jumps t ht).2⟩

/-- Every instruction of a snippet stands in a code that the snippet is part of, if the depths there
are those of the snippet above a common depth up to its end. -/
theorem stands (h : b.Admits snippet returnsValue depths deepest) {code : List Instruction}
    {depths' : Nat → Option Nat} {bound : Nat} {maxLocals : UInt16} {start : Nat}
    {below : Option Nat}
    (hcode : SnippetAt code snippet start) (hlocals : b.maxLocals ≤ maxLocals)
    (hend : start + snippet.length < code.length) (hsmall : code.length < UInt32.size)
    (hdepths : ∀ pc ≤ snippet.length, depths' (start + pc) = above below depths pc)
    (hbound : ∀ base, below = some base → deepest + base ≤ bound) {pc : Nat}
    (hpc : pc < snippet.length) :
    ∃ i : Instruction, i.Stands code depths' bound maxLocals returnsValue (start + pc) := by
  obtain ⟨i, hi⟩ : ∃ i, snippet[pc]? = some i := ⟨_, List.getElem?_eq_getElem hpc⟩
  have hsuits := h.suits i (List.mem_of_getElem? hi)
  have htarget : ∀ t, i.target? = some t →
      (t + UInt32.ofNat start).toNat = start + t.toNat ∧ t.toNat ≤ snippet.length := by
    intro t ht
    have hlt := hsuits.target t ht
    exact ⟨toNat_add_ofNat (Nat.lt_of_le_of_lt (by omega) hsmall), Nat.le_of_lt_succ hlt⟩
  have hshift : ∀ base n depth, below = some base → n ≤ snippet.length →
      depths n = some depth → depths' (start + n) = some (depth + base) := by
    intro base n depth hbase hn hd
    rw [hdepths n hn, above_eq_some_iff]
    exact ⟨base, depth, hbase, hd, rfl⟩
  have hfound : ∀ depth, depths' (start + pc) = some depth →
      ∃ base own, below = some base ∧ depths pc = some own ∧ depth = own + base := by
    intro depth hd
    rwa [hdepths pc (Nat.le_of_lt hpc), above_eq_some_iff] at hd
  refine ⟨i.mapTarget (· + UInt32.ofNat start), ?_⟩
  constructor
  case at_index => exact hcode pc i hi
  case suits =>
    apply hsuits.mapTarget hlocals
    intro t ht
    have := htarget t ht
    omega
  case le_bound =>
    intro depth hd
    obtain ⟨base, own, hbase, hown, rfl⟩ := hfound depth hd
    have := h.le_deepest pc own hown
    have := hbound base hbase
    omega
  case agrees =>
    intro depth hd
    obtain ⟨base, own, hbase, hown, rfl⟩ := hfound depth hd
    apply (h.agrees pc i own hi hown).mapTarget base (hbound base hbase)
    · intro _ hlt hnext
      refine ⟨by omega, ?_⟩
      rw [Nat.add_assoc]
      exact hshift base (pc + 1) _ hbase (by omega) hnext
    · intro t ht hd
      obtain ⟨hval, hle⟩ := htarget t ht
      rw [hval]
      exact ⟨by omega, hshift base t.toNat _ hbase hle hd⟩

end Body.Admits

end Hotswap
