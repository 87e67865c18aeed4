import Hotswap.Proofs.Weaving

/-!
# Snippet after snippet

Snippets that are woven into a body in turn come to the same as one snippet made of them, and it is
the same body that gets a snippet first in front and then one before its returns, or the other way
round. To compare bodies the woven code is written down as a function of the old one: every
instruction has its stand-ins, from where those of the instructions before it end, and what moves
branches is a function of its own. Weaving in twice composes these functions.
-/

namespace Hotswap

/-! ### Branches and returns -/

/-- The branches of a code lead to its instructions or to its end. -/
def BranchesInside (code : List Instruction) : Prop :=
  ∀ i ∈ code, ∀ t ∈ i.target?, t.toNat ≤ code.length

instance (code : List Instruction) : Decidable (BranchesInside code) :=
  decidable_of_iff (code.all fun i ↦ i.target?.all fun t ↦ t.toNat ≤ code.length)
    (by simp [BranchesInside, Option.all_eq_true])

/-- No instruction of a code returns. -/
def ReturnsNowhere (code : List Instruction) : Prop := ∀ i ∈ code, i.flow ≠ .leave

theorem returnsNowhere_of_not_mem {code : List Instruction} (hret : .ret ∉ code)
    (hretValue : .retValue ∉ code) : ReturnsNowhere code := by
  intro i hi hflow
  cases i with
  | ret => exact hret hi
  | retValue => exact hretValue hi
  | _ => cases hflow

theorem checkBranches_eq_ok {snippet : List Instruction} :
    checkBranches snippet = .ok () ↔ BranchesInside snippet :=
  ⟨target_le_of_checkBranches, checkBranches_of_target_le⟩

theorem relocate_append (distance : Nat) (code rest : List Instruction) :
    relocate distance (code ++ rest) = relocate distance code ++ relocate distance rest :=
  List.map_append

theorem relocate_cons (distance : Nat) (i : Instruction) (code : List Instruction) :
    relocate distance (i :: code) =
      i.mapTarget (· + UInt32.ofNat distance) :: relocate distance code := rfl

/-- Code that is moved twice is moved by both distances. -/
theorem relocate_relocate (first second : Nat) (code : List Instruction) :
    relocate second (relocate first code) = relocate (first + second) code := by
  have hmoved : ((· + UInt32.ofNat second) ∘ (· + UInt32.ofNat first) : UInt32 → UInt32) =
      (· + UInt32.ofNat (first + second)) := by
    funext t
    rw [Function.comp_apply, UInt32.ofNat_add, UInt32.add_assoc]
  rw [relocate, relocate, List.map_map]
  refine List.map_congr_left fun i _ ↦ ?_
  rw [Function.comp_apply, Instruction.mapTarget_mapTarget, hmoved]

/-- Moved code returns as it did. -/
theorem returnsNowhere_relocate {code : List Instruction} (h : ReturnsNowhere code)
    (distance : Nat) : ReturnsNowhere (relocate distance code) := by
  intro i hi
  obtain ⟨j, hj, rfl⟩ := List.mem_map.mp hi
  rw [Instruction.flow_mapTarget]
  exact h j hj

/-- The branches of two codes stay inside when one is put behind the other. -/
theorem branchesInside_append_relocate {code rest : List Instruction}
    (hcode : BranchesInside code) (hrest : BranchesInside rest) :
    BranchesInside (code ++ relocate code.length rest) := by
  intro i hi t ht
  rw [List.length_append, length_relocate]
  rcases List.mem_append.mp hi with hi | hi
  · have := hcode i hi t ht
    omega
  · obtain ⟨j, hj, rfl⟩ := List.mem_map.mp hi
    rw [Option.mem_def, Instruction.target?_mapTarget, Option.map_eq_some_iff] at ht
    obtain ⟨u, hu, rfl⟩ := ht
    have hle := hrest j hj u hu
    by_cases hfits : code.length + rest.length < UInt32.size
    · rw [toNat_add_ofNat (by omega)]
      omega
    · have hlt := (u + UInt32.ofNat code.length).toNat_lt_size
      omega

/-! ### Lengths of woven code -/

/-- The number of instructions that stand for those of a code. -/
def wovenLength (snippetLength : Nat) (code : List Instruction) : Nat :=
  (code.map (Instruction.expandedLength snippetLength)).sum

section

variable {snippetLength : Nat} {code rest : List Instruction}

@[simp] theorem wovenLength_append :
    wovenLength snippetLength (code ++ rest) =
      wovenLength snippetLength code + wovenLength snippetLength rest := by
  rw [wovenLength, List.map_append, List.sum_append, wovenLength, wovenLength]

@[simp] theorem wovenLength_cons {i : Instruction} :
    wovenLength snippetLength (i :: code) =
      i.expandedLength snippetLength + wovenLength snippetLength code := by
  rw [wovenLength, List.map_cons, List.sum_cons, wovenLength]

@[simp] theorem expandedLength_mapTarget (f : UInt32 → UInt32) (i : Instruction) :
    (i.mapTarget f).expandedLength snippetLength = i.expandedLength snippetLength := by
  cases i <;> rfl

@[simp] theorem wovenLength_relocate (distance : Nat) :
    wovenLength snippetLength (relocate distance code) = wovenLength snippetLength code := by
  simp only [wovenLength, relocate, List.map_map, Function.comp_def, expandedLength_mapTarget]

/-- Code that returns nowhere gets no longer. -/
theorem wovenLength_of_returnsNowhere (h : ReturnsNowhere code) :
    wovenLength snippetLength code = code.length := by
  induction code with
  | nil => rfl
  | cons i code ih =>
    rw [wovenLength_cons, Instruction.expandedLength_of_flow (h i (.head _)), ih fun j hj ↦ h j (.tail _ hj),
      List.length_cons, Nat.add_comm]

theorem length_le_wovenLength : code.length ≤ wovenLength snippetLength code := by
  induction code with
  | nil => exact Nat.le_refl _
  | cons i code ih =>
    have hpos : 0 < i.expandedLength snippetLength := by
      cases i <;> exact Nat.succ_pos _
    rw [wovenLength_cons, List.length_cons]
    omega

theorem wovenLength_take_lt {index : Nat} (h : index < code.length) :
    wovenLength snippetLength (code.take index) < wovenLength snippetLength code := by
  have hrest : 0 < wovenLength snippetLength (code.drop index) :=
    Nat.lt_of_lt_of_le (by rw [List.length_drop]; omega) length_le_wovenLength
  have hsplit : wovenLength snippetLength code = wovenLength snippetLength (code.take index) +
      wovenLength snippetLength (code.drop index) := by
    rw [← wovenLength_append, List.take_append_drop]
  omega

end

/-! ### Woven code -/

/-- What stands for an instruction from `start` on, where branches are moved as given. -/
def Instruction.standIns (snippet : List Instruction) (spill : UInt16) (moved : UInt32 → UInt32)
    (start : Nat) : Instruction → List Instruction
  | ret => relocate start snippet ++ [ret]
  | retValue => store spill :: relocate (start + 1) snippet ++ [load spill, retValue]
  | i => [i.mapTarget moved]

/-- What stands for the instructions of a code from `start` on. -/
def wovenCode (snippet : List Instruction) (spill : UInt16) (moved : UInt32 → UInt32) :
    Nat → List Instruction → List Instruction
  | _, [] => []
  | start, i :: code =>
    i.standIns snippet spill moved start ++
      wovenCode snippet spill moved (start + i.expandedLength snippet.length) code

/-- Where a branch of a code leads when a snippet of some length was woven into the code. -/
def movedTarget (snippetLength : Nat) (code : List Instruction) (t : UInt32) : UInt32 :=
  UInt32.ofNat (wovenLength snippetLength (code.take t.toNat))

/-- A body with a snippet before each return. -/
def Body.woven (b : Body) (snippet : List Instruction) : Body :=
  { b with
    code := wovenCode snippet b.maxLocals (movedTarget snippet.length b.code) 0 b.code
    maxLocals := if b.returnsSomewhere then b.maxLocals + 1 else b.maxLocals }

/-- A body with a snippet in front. -/
def Body.prefixed (b : Body) (snippet : List Instruction) : Body :=
  { b with code := snippet ++ relocate snippet.length b.code }

section

variable {snippet code rest : List Instruction} {spill : UInt16} {moved moved' : UInt32 → UInt32}
  {start : Nat}

theorem standIns_of_flow {i : Instruction} (h : i.flow ≠ .leave) :
    i.standIns snippet spill moved start = [i.mapTarget moved] := by
  cases i with
  | ret | retValue => exact absurd rfl h
  | _ => rfl

theorem mapTarget_congr {f g : UInt32 → UInt32} {i : Instruction}
    (h : ∀ t ∈ i.target?, f t = g t) : i.mapTarget f = i.mapTarget g := by
  cases i with
  | jump t | jumpIf c t => simp only [Instruction.mapTarget, h t rfl]
  | _ => rfl

theorem standIns_congr {i : Instruction} (h : ∀ t ∈ i.target?, moved t = moved' t) :
    i.standIns snippet spill moved start = i.standIns snippet spill moved' start := by
  cases i with
  | ret | retValue => rfl
  | _ => exact congrArg (fun j : Instruction ↦ [j]) (mapTarget_congr h)

theorem length_standIns (i : Instruction) :
    (i.standIns snippet spill moved start).length = i.expandedLength snippet.length := by
  cases i <;> simp [Instruction.standIns, Instruction.expandedLength, length_relocate]

theorem length_wovenCode :
    (wovenCode snippet spill moved start code).length = wovenLength snippet.length code := by
  induction code generalizing start with
  | nil => rfl
  | cons i code ih => rw [wovenCode, List.length_append, length_standIns, ih, wovenLength_cons]

theorem wovenCode_append :
    wovenCode snippet spill moved start (code ++ rest) =
      wovenCode snippet spill moved start code ++
        wovenCode snippet spill moved (start + wovenLength snippet.length code) rest := by
  induction code generalizing start with
  | nil => rfl
  | cons i code ih =>
    rw [List.cons_append, wovenCode, ih, wovenCode, List.append_assoc, wovenLength_cons,
      Nat.add_assoc]

/-- Woven code depends on nothing but where the branches that are there lead. -/
theorem wovenCode_congr (h : ∀ i ∈ code, ∀ t ∈ i.target?, moved t = moved' t) :
    wovenCode snippet spill moved start code = wovenCode snippet spill moved' start code := by
  induction code generalizing start with
  | nil => rfl
  | cons i code ih =>
    rw [wovenCode, wovenCode, standIns_congr (h i (.head _)), ih fun j hj ↦ h j (.tail _ hj)]

/-- Nothing is woven into code that returns nowhere. -/
theorem wovenCode_of_returnsNowhere (h : ReturnsNowhere code) :
    wovenCode snippet spill moved start code = code.map (Instruction.mapTarget moved) := by
  induction code generalizing start with
  | nil => rfl
  | cons i code ih =>
    rw [wovenCode, standIns_of_flow (h i (.head _)), ih fun j hj ↦ h j (.tail _ hj)]
    rfl

/-- Woven code that is moved is woven where it is moved to. -/
theorem relocate_wovenCode (distance : Nat) :
    relocate distance (wovenCode snippet spill moved start code) =
      wovenCode snippet spill ((· + UInt32.ofNat distance) ∘ moved) (start + distance) code := by
  induction code generalizing start with
  | nil => rfl
  | cons i code ih =>
    rw [wovenCode, relocate_append, ih, wovenCode, Nat.add_right_comm]
    congr 1
    cases i with
    | ret =>
      rw [Instruction.standIns, relocate_append, relocate_relocate]
      rfl
    | retValue =>
      rw [Instruction.standIns, relocate_append, relocate_cons, relocate_relocate,
        Nat.add_right_comm]
      rfl
    | _ => rfl

/-- Weaving into moved code is weaving into the code, with branches moved before. -/
theorem wovenCode_relocate (distance : Nat) :
    wovenCode snippet spill moved start (relocate distance code) =
      wovenCode snippet spill (moved ∘ (· + UInt32.ofNat distance)) start code := by
  induction code generalizing start with
  | nil => rfl
  | cons i code ih =>
    rw [relocate_cons, wovenCode, expandedLength_mapTarget, ih, wovenCode]
    congr 1
    cases i <;> rfl

/-- Where a snippet that returns nowhere was woven in, the next one comes before each return as
before. -/
theorem wovenLength_standIns {i : Instruction} (hi : i ≠ .retValue) (hs : ReturnsNowhere snippet)
    (snippetLength : Nat) :
    wovenLength snippetLength (i.standIns snippet spill moved start) =
      i.expandedLength (snippet.length + snippetLength) := by
  by_cases hflow : i.flow = .leave
  · cases i with
    | ret =>
      rw [Instruction.standIns, wovenLength_append, wovenLength_relocate,
        wovenLength_of_returnsNowhere hs]
      exact (Nat.add_assoc ..).symm
    | retValue => exact absurd rfl hi
    | _ => cases hflow
  · rw [standIns_of_flow hflow, wovenLength_cons, expandedLength_mapTarget,
      Instruction.expandedLength_of_flow hflow, Instruction.expandedLength_of_flow hflow]
    rfl

theorem wovenLength_wovenCode (hcode : .retValue ∉ code) (hs : ReturnsNowhere snippet)
    (snippetLength : Nat) :
    wovenLength snippetLength (wovenCode snippet spill moved start code) =
      wovenLength (snippet.length + snippetLength) code := by
  induction code generalizing start with
  | nil => rfl
  | cons i code ih =>
    rw [wovenCode, wovenLength_append,
      wovenLength_standIns (List.ne_of_not_mem_cons hcode).symm hs,
      ih (List.not_mem_of_not_mem_cons hcode), wovenLength_cons]

variable {s₁ s₂ : List Instruction} {f₁ f₂ f : UInt32 → UInt32} {start₁ start₂ : Nat}

/-- Weaving into the stand-ins of an instruction gives its stand-ins for both snippets, if the
branches come to lead where they do then. -/
theorem wovenCode_standIns {i : Instruction} (hi : i ≠ .retValue) (hs : ReturnsNowhere s₁)
    (hinside : BranchesInside s₁) (htarget : ∀ t ∈ i.target?, f₂ (f₁ t) = f t)
    (hsnippet : i = .ret → ∀ t : UInt32, t.toNat ≤ s₁.length →
      f₂ (t + UInt32.ofNat start₁) = t + UInt32.ofNat start₂) :
    wovenCode s₂ spill f₂ start₂ (i.standIns s₁ spill f₁ start₁) =
      i.standIns (s₁ ++ relocate s₁.length s₂) spill f start₂ := by
  by_cases hflow : i.flow = .leave
  · cases i with
    | ret =>
      have hmoved : (relocate start₁ s₁).map (Instruction.mapTarget f₂) = relocate start₂ s₁ := by
        rw [relocate, relocate, List.map_map]
        refine List.map_congr_left fun j hj ↦ ?_
        rw [Function.comp_apply, Instruction.mapTarget_mapTarget]
        exact mapTarget_congr fun t ht ↦ hsnippet rfl t (hinside j hj t ht)
      calc wovenCode s₂ spill f₂ start₂ (relocate start₁ s₁ ++ [.ret])
          = relocate start₂ s₁ ++ wovenCode s₂ spill f₂ (start₂ + s₁.length) [.ret] := by
            rw [wovenCode_append, wovenLength_relocate, wovenLength_of_returnsNowhere hs,
              wovenCode_of_returnsNowhere (returnsNowhere_relocate hs start₁), hmoved]
        _ = relocate start₂ s₁ ++ (relocate (s₁.length + start₂) s₂ ++ [.ret]) := by
            rw [Nat.add_comm s₁.length, wovenCode, wovenCode, List.append_nil,
              Instruction.standIns]
        _ = relocate start₂ (s₁ ++ relocate s₁.length s₂) ++ [.ret] := by
            rw [relocate_append, relocate_relocate, List.append_assoc]
    | retValue => exact absurd rfl hi
    | _ => cases hflow
  · have hmoved : (i.mapTarget f₁).flow ≠ .leave := by rwa [Instruction.flow_mapTarget]
    rw [standIns_of_flow hflow, standIns_of_flow hflow, wovenCode, wovenCode, List.append_nil,
      standIns_of_flow hmoved, Instruction.mapTarget_mapTarget]
    rw [mapTarget_congr (f := f₂ ∘ f₁) htarget]

/-- Weaving twice into a code without results weaves both snippets in at once, if the branches come
to lead where they do then: those of the code from where the first weaving has moved them, and those
of the first snippet from where it stands. -/
theorem wovenCode_wovenCode (hcode : .retValue ∉ code) (hs : ReturnsNowhere s₁)
    (hinside : BranchesInside s₁) (htargets : ∀ i ∈ code, ∀ t ∈ i.target?, f₂ (f₁ t) = f t)
    (hsnippet : ∀ before after, code = before ++ .ret :: after →
      ∀ t : UInt32, t.toNat ≤ s₁.length →
        f₂ (t + UInt32.ofNat (start₁ + wovenLength s₁.length before)) =
          t + UInt32.ofNat (start₂ + wovenLength (s₁.length + s₂.length) before)) :
    wovenCode s₂ spill f₂ start₂ (wovenCode s₁ spill f₁ start₁ code) =
      wovenCode (s₁ ++ relocate s₁.length s₂) spill f start₂ code := by
  have hlength : (s₁ ++ relocate s₁.length s₂).length = s₁.length + s₂.length := by
    rw [List.length_append, length_relocate]
  induction code generalizing start₁ start₂ with
  | nil => rfl
  | cons i code ih =>
    have hi := List.ne_of_not_mem_cons hcode
    have hcode := List.not_mem_of_not_mem_cons hcode
    have hfirst : wovenCode s₂ spill f₂ start₂ (i.standIns s₁ spill f₁ start₁) =
        i.standIns (s₁ ++ relocate s₁.length s₂) spill f start₂ := by
      refine wovenCode_standIns (Ne.symm hi) hs hinside (htargets i (.head _)) ?_
      rintro rfl
      exact hsnippet [] code rfl
    rw [wovenCode, wovenCode_append, hfirst, wovenLength_standIns (Ne.symm hi) hs, wovenCode,
      hlength]
    congr 1
    refine ih hcode (fun j hj ↦ htargets j (.tail _ hj)) fun before after hsplit t ht ↦ ?_
    have := hsnippet (i :: before) after (by rw [hsplit, List.cons_append]) t ht
    rw [wovenLength_cons, wovenLength_cons, ← Nat.add_assoc, ← Nat.add_assoc] at this
    exact this

end

/-! ### What weaving gives -/

/-- A body gets a snippet in front when the branches of the snippet stay inside and the result has
32 bits of indices. -/
theorem Body.insertBefore_eq_ok_iff {b b' : Body} {snippet : List Instruction} :
    b.insertBefore snippet = .ok b' ↔ BranchesInside snippet ∧
      snippet.length + b.code.length < UInt32.size ∧ b.prefixed snippet = b' := by
  rw [insertBefore_eq_ok, checkBranches_eq_ok, eq_comm (a := b')]
  rfl

/-- An instruction has stand-ins when its branch leads to an instruction. -/
theorem Instruction.expand_eq_ok {i : Instruction} {snippet part : List Instruction}
    {spill : UInt16} {starts : Array Nat} {index : Nat} :
    i.expand snippet spill starts index = .ok part ↔
      (∀ t ∈ i.target?, t.toNat + 1 < starts.size) ∧
        i.standIns snippet spill (fun t ↦ UInt32.ofNat (starts.getD t.toNat 0))
          (starts.getD index 0) = part := by
  cases i with
  | jump t | jumpIf c t =>
    simp only [expand, target?, standIns, Option.mem_def, Option.some.injEq, forall_eq']
    split
    · next h => simp [h, mapTarget]
    · next h => simp [h]
  | _ => simp [expand, standIns, target?, mapTarget]

/-- The stand-ins of all instructions are the woven code. -/
theorem flatten_standIns {snippet : List Instruction} {spill : UInt16} {moved : UInt32 → UInt32}
    (before code : List Instruction) :
    ((code.zipIdx before.length).map fun p ↦ p.1.standIns snippet spill moved
      (startOf snippet.length (before ++ code) p.2)).flatten =
      wovenCode snippet spill moved (wovenLength snippet.length before) code := by
  induction code generalizing before with
  | nil => rfl
  | cons i code ih =>
    have hstart : startOf snippet.length (before ++ i :: code) before.length =
        wovenLength snippet.length before := by
      rw [startOf_eq_sum (by simp), List.take_left']
      · rfl
      · rfl
    have hrest := ih (before ++ [i])
    rw [List.append_assoc, List.singleton_append, List.length_append, List.length_singleton,
      wovenLength_append] at hrest
    rw [List.zipIdx_cons, List.map_cons, List.flatten_cons, hstart, hrest, wovenCode]
    rfl

/-- All instructions of a code have stand-ins when its branches lead to instructions, and together
they are the woven code. -/
theorem exists_expand_eq_ok {snippet code code' : List Instruction} {spill : UInt16} :
    (∃ parts, (code.zipIdx.mapM fun p ↦ p.1.expand snippet spill
        (expansionStarts snippet.length code).toArray p.2) = .ok parts ∧ parts.flatten = code') ↔
      (∀ i ∈ code, ∀ t ∈ i.target?, t.toNat < code.length) ∧
        wovenCode snippet spill (movedTarget snippet.length code) 0 code = code' := by
  have hsize : (expansionStarts snippet.length code).toArray.size = code.length + 1 := by
    rw [List.size_toArray, expansionStarts, List.length_scanl]
  have htargets : (∀ p ∈ code.zipIdx, ∀ t ∈ p.1.target?,
      t.toNat + 1 < (expansionStarts snippet.length code).toArray.size) ↔
        ∀ i ∈ code, ∀ t ∈ i.target?, t.toNat < code.length := by
    simp only [hsize, Nat.add_lt_add_iff_right]
    have hforall := List.forall_mem_map (l := code.zipIdx) (f := Prod.fst)
      (P := fun i : Instruction ↦ ∀ t ∈ i.target?, t.toNat < code.length)
    rw [List.zipIdx_map_fst] at hforall
    exact hforall.symm
  have hwoven : (∀ i ∈ code, ∀ t ∈ i.target?, t.toNat < code.length) →
      (code.zipIdx.map fun p ↦ p.1.standIns snippet spill
        (fun t ↦ UInt32.ofNat (startOf snippet.length code t.toNat))
        (startOf snippet.length code p.2)).flatten =
        wovenCode snippet spill (movedTarget snippet.length code) 0 code := by
    intro h
    refine (flatten_standIns [] code).trans (wovenCode_congr fun i hi t ht ↦ ?_)
    rw [startOf_eq_sum (Nat.le_of_lt (h i hi t ht))]
    rfl
  have hparts : ∀ parts, (code.zipIdx.mapM fun p ↦ p.1.expand snippet spill
      (expansionStarts snippet.length code).toArray p.2) = .ok parts ↔
        (∀ p ∈ code.zipIdx, ∀ t ∈ p.1.target?,
          t.toNat + 1 < (expansionStarts snippet.length code).toArray.size) ∧
        (code.zipIdx.map fun p ↦ p.1.standIns snippet spill
          (fun t ↦ UInt32.ofNat (startOf snippet.length code t.toNat))
          (startOf snippet.length code p.2)) = parts :=
    fun _ ↦ mapM_eq_ok_iff_map fun _ _ ↦ Instruction.expand_eq_ok
  constructor
  · rintro ⟨parts, hexpand, rfl⟩
    obtain ⟨h, rfl⟩ := (hparts parts).mp hexpand
    exact ⟨htargets.mp h, (hwoven (htargets.mp h)).symm⟩
  · rintro ⟨h, rfl⟩
    exact ⟨_, (hparts _).mpr ⟨htargets.mpr h, rfl⟩, hwoven h⟩

/-- A body gets a snippet before each return when the branches of the snippet stay inside, a local
is left for a result, the woven code has 32 bits of indices and the branches of the body lead to
instructions. -/
theorem Body.insertAfter_eq_ok_iff {b b' : Body} {snippet : List Instruction} :
    b.insertAfter snippet = .ok b' ↔ BranchesInside snippet ∧
      (b.returnsSomewhere = true → b.maxLocals ≠ 0xFFFF) ∧
      wovenLength snippet.length b.code < UInt32.size ∧
      (∀ i ∈ b.code, ∀ t ∈ i.target?, t.toNat < b.code.length) ∧ b.woven snippet = b' := by
  have hlength : startOf snippet.length b.code b.code.length =
      wovenLength snippet.length b.code := by
    rw [startOf_eq_sum (Nat.le_refl _), List.take_length]
    rfl
  by_cases hfull : b.returnsSomewhere = true ∧ b.maxLocals = 0xFFFF
  · have hrefused : b.insertAfter snippet ≠ .ok b' := by
      intro h
      obtain ⟨⟨⟩, -, h⟩ := bind_eq_ok.mp h
      simp only [hfull, beq_self_eq_true, Bool.and_self, if_true] at h
      cases h
    exact iff_of_false hrefused fun h ↦ h.2.1 hfull.1 hfull.2
  · have hfree : (b.returnsSomewhere && b.maxLocals == 0xFFFF) = false := by
      simpa using hfull
    have hspill : b.returnsSomewhere = true → b.maxLocals ≠ 0xFFFF := fun h h' ↦ hfull ⟨h, h'⟩
    rw [← checkBranches_eq_ok, ← hlength, ← forM_checkLength_eq_ok]
    constructor
    · intro h
      obtain ⟨⟨⟩, hbranches, h⟩ := bind_eq_ok.mp h
      simp only [hfree] at h
      obtain ⟨⟨⟩, hfits, h⟩ := bind_eq_ok.mp h
      obtain ⟨parts, hparts, h⟩ := bind_eq_ok.mp h
      obtain ⟨htargets, hcode⟩ := exists_expand_eq_ok.mp ⟨parts, hparts, rfl⟩
      refine ⟨hbranches, hspill, hfits, htargets, ?_⟩
      rw [woven, hcode]
      exact Except.ok.inj h
    · rintro ⟨hbranches, -, hfits, htargets, rfl⟩
      obtain ⟨parts, hparts, hcode⟩ := exists_expand_eq_ok.mpr ⟨htargets, rfl⟩
      refine bind_eq_ok.mpr ⟨⟨⟩, hbranches, ?_⟩
      simp only [hfree]
      refine bind_eq_ok.mpr ⟨⟨⟩, hfits, bind_eq_ok.mpr ⟨parts, hparts, ?_⟩⟩
      rw [woven, ← hcode]
      rfl

/-! ### What woven code consists of -/

section

variable {snippet code : List Instruction} {spill : UInt16} {moved : UInt32 → UInt32} {start : Nat}

/-- In a code without results, what is woven is made of the instructions of the code and of the
snippet before each return. -/
theorem exists_of_mem_wovenCode {i : Instruction} (hcode : .retValue ∉ code)
    (hi : i ∈ wovenCode snippet spill moved start code) :
    (∃ j ∈ code, i = j.mapTarget moved) ∨
      ∃ before after, code = before ++ .ret :: after ∧
        i ∈ relocate (start + wovenLength snippet.length before) snippet := by
  induction code generalizing start with
  | nil => cases hi
  | cons j code ih =>
    have hj := List.ne_of_not_mem_cons hcode
    have hcode := List.not_mem_of_not_mem_cons hcode
    rcases List.mem_append.mp hi with hi | hi
    · by_cases hret : j = .ret
      · subst hret
        rcases List.mem_append.mp hi with hi | hi
        · exact .inr ⟨[], code, rfl, hi⟩
        · rw [List.mem_singleton.mp hi]
          exact .inl ⟨.ret, .head _, rfl⟩
      · have hflow : j.flow ≠ .leave := by
          cases j with
          | ret => exact absurd rfl hret
          | retValue => exact absurd rfl hj
          | _ => nofun
        rw [standIns_of_flow hflow, List.mem_singleton] at hi
        exact .inl ⟨j, .head _, hi⟩
    · rcases ih hcode hi with ⟨k, hk, rfl⟩ | ⟨before, after, rfl, hi⟩
      · exact .inl ⟨k, .tail _ hk, rfl⟩
      · refine .inr ⟨j :: before, after, rfl, ?_⟩
        rwa [wovenLength_cons, ← Nat.add_assoc]

/-- What is woven into a code that returns nowhere, or without results, returns as the code does. -/
theorem retValue_not_mem_wovenCode (hcode : .retValue ∉ code) (hs : ReturnsNowhere snippet) :
    .retValue ∉ wovenCode snippet spill moved start code := by
  intro hi
  rcases exists_of_mem_wovenCode hcode hi with ⟨j, hj, hsame⟩ | ⟨before, after, -, hi⟩
  · cases j with
    | retValue => exact hcode hj
    | _ => cases hsame
  · exact returnsNowhere_relocate hs _ _ hi rfl

end

/-! ### Where branches lead -/

section

variable {snippetLength : Nat} {code : List Instruction}

theorem wovenLength_mono {snippetLength' : Nat} (h : snippetLength ≤ snippetLength') :
    wovenLength snippetLength code ≤ wovenLength snippetLength' code := by
  induction code with
  | nil => exact Nat.le_refl _
  | cons i code ih =>
    have hi : i.expandedLength snippetLength ≤ i.expandedLength snippetLength' := by
      cases i <;> simp [Instruction.expandedLength, h]
    rw [wovenLength_cons, wovenLength_cons]
    exact Nat.add_le_add hi ih

theorem wovenLength_take_le (index : Nat) :
    wovenLength snippetLength (code.take index) ≤ wovenLength snippetLength code := by
  have hsplit : wovenLength snippetLength (code.take index ++ code.drop index) =
      wovenLength snippetLength (code.take index) + wovenLength snippetLength (code.drop index) :=
    wovenLength_append
  rw [List.take_append_drop] at hsplit
  omega

theorem toNat_movedTarget (h : wovenLength snippetLength code < UInt32.size) (t : UInt32) :
    (movedTarget snippetLength code t).toNat =
      wovenLength snippetLength (code.take t.toNat) :=
  UInt32.toNat_ofNat_of_lt' (Nat.lt_of_le_of_lt (wovenLength_take_le _) h)

/-- A branch to behind a code leads to behind what stands for it. -/
theorem movedTarget_of_toNat_eq {before rest : List Instruction} {n : Nat} {t : UInt32}
    (h : t.toNat = before.length + n) :
    movedTarget snippetLength (before ++ rest) t =
      UInt32.ofNat
        (wovenLength snippetLength before + wovenLength snippetLength (rest.take n)) := by
  rw [movedTarget, h, List.take_length_add_append, wovenLength_append]

/-- Where a snippet that returns nowhere was woven in, a branch leads as far behind what stands for
a code as it led. -/
theorem movedTarget_wovenCode {snippet before : List Instruction} {n : Nat} {t : UInt32}
    (hbefore : .retValue ∉ before) (hs : ReturnsNowhere snippet)
    (ht : t.toNat = wovenLength snippet.length before + n) (snippetLength : Nat)
    (spill : UInt16) (moved : UInt32 → UInt32) (rest : List Instruction) :
    movedTarget snippetLength (wovenCode snippet spill moved 0 (before ++ rest)) t =
      UInt32.ofNat (wovenLength (snippet.length + snippetLength) before +
        wovenLength snippetLength ((wovenCode snippet spill moved
          (0 + wovenLength snippet.length before) rest).take n)) := by
  have hlength : (wovenCode snippet spill moved 0 before).length =
      wovenLength snippet.length before := length_wovenCode
  rw [← hlength] at ht
  rw [wovenCode_append, movedTarget_of_toNat_eq ht, wovenLength_wovenCode hbefore hs]

/-- Inside a code that returns nowhere a branch leads where it led. -/
theorem movedTarget_of_le {rest : List Instruction} {t : UInt32} (hcode : ReturnsNowhere code)
    (ht : t.toNat ≤ code.length) : movedTarget snippetLength (code ++ rest) t = t := by
  have hfront : ReturnsNowhere (code.take t.toNat) := fun i hi ↦ hcode i (List.mem_of_mem_take hi)
  rw [movedTarget, List.take_append_of_le_length ht, wovenLength_of_returnsNowhere hfront,
    List.length_take, Nat.min_eq_left ht, UInt32.ofNat_toNat]

end

/-! ### The laws -/

namespace Body

variable {b : Body} {s₁ s₂ : List Instruction}

theorem eq_of_parts_eq {b b' : Body} (hlocals : b.maxLocals = b'.maxLocals)
    (hstack : b.maxStack = b'.maxStack) (hcode : b.code = b'.code) : b = b' := by
  cases b
  cases hlocals
  cases hstack
  cases hcode
  rfl

theorem length_prefixed (b : Body) (snippet : List Instruction) :
    (b.prefixed snippet).code.length = snippet.length + b.code.length := by
  rw [prefixed, List.length_append, length_relocate]

theorem length_woven (b : Body) (snippet : List Instruction) :
    (b.woven snippet).code.length = wovenLength snippet.length b.code := length_wovenCode

/-- Two snippets in front of a body are one snippet in front of it. -/
theorem prefixed_prefixed (b : Body) (s₁ s₂ : List Instruction) :
    (b.prefixed s₁).prefixed s₂ = b.prefixed (s₂ ++ relocate s₂.length s₁) := by
  simp only [prefixed, relocate_append, relocate_relocate, List.length_append, length_relocate,
    List.append_assoc, Nat.add_comm s₁.length]

/-- A snippet before each return and then another one are one snippet there, unless the body returns
a value or the first snippet returns. -/
theorem woven_woven (hb : .retValue ∉ b.code) (hs : ReturnsNowhere s₁)
    (hinside : BranchesInside s₁) (hlength : wovenLength s₁.length b.code < UInt32.size) :
    (b.woven s₁).woven s₂ = b.woven (s₁ ++ relocate s₁.length s₂) := by
  have hreturns : b.returnsSomewhere = false := by
    rw [returnsSomewhere, List.contains_eq_mem, decide_eq_false hb]
  have hreturns' : (b.woven s₁).returnsSomewhere = false := by
    rw [returnsSomewhere, List.contains_eq_mem, decide_eq_false]
    exact retValue_not_mem_wovenCode hb hs
  have hfrom : ∀ i ∈ b.code, ∀ t ∈ i.target?,
      movedTarget s₂.length (b.woven s₁).code (movedTarget s₁.length b.code t) =
        movedTarget (s₁.length + s₂.length) b.code t := by
    intro i _ t _
    have hbefore : .retValue ∉ b.code.take t.toNat := fun h ↦ hb (List.mem_of_mem_take h)
    have hmoved := movedTarget_wovenCode hbefore hs (n := 0) (toNat_movedTarget hlength t)
      s₂.length b.maxLocals (movedTarget s₁.length b.code) (b.code.drop t.toNat)
    rw [List.take_append_drop] at hmoved
    exact hmoved
  have hsnippet : ∀ before after, b.code = before ++ .ret :: after →
      ∀ t : UInt32, t.toNat ≤ s₁.length →
        movedTarget s₂.length (b.woven s₁).code
            (t + UInt32.ofNat (0 + wovenLength s₁.length before)) =
          t + UInt32.ofNat (0 + wovenLength (s₁.length + s₂.length) before) := by
    intro before after hsplit t ht
    have hbefore : .retValue ∉ before := fun h ↦ hb (hsplit ▸ List.mem_append_left _ h)
    have hroom : wovenLength s₁.length before + s₁.length < wovenLength s₁.length b.code := by
      rw [hsplit, wovenLength_append, wovenLength_cons, Instruction.expandedLength]
      omega
    have hat : (t + UInt32.ofNat (wovenLength s₁.length before)).toNat =
        wovenLength s₁.length before + t.toNat := toNat_add_ofNat (by omega)
    have hmoved := movedTarget_wovenCode hbefore hs hat s₂.length b.maxLocals
      (movedTarget s₁.length b.code) (.ret :: after)
    have hfront : ReturnsNowhere ((relocate (0 + wovenLength s₁.length before) s₁).take t.toNat) :=
      fun i hi ↦ returnsNowhere_relocate hs _ i (List.mem_of_mem_take hi)
    rw [← hsplit, wovenCode, Instruction.standIns, List.append_assoc,
      List.take_append_of_le_length (by rwa [length_relocate]),
      wovenLength_of_returnsNowhere hfront, List.length_take, length_relocate,
      Nat.min_eq_left ht, UInt32.ofNat_add, UInt32.ofNat_toNat,
      UInt32.add_comm (UInt32.ofNat _) t] at hmoved
    rw [Nat.zero_add, Nat.zero_add]
    exact hmoved
  have hcode : ((b.woven s₁).woven s₂).code = (b.woven (s₁ ++ relocate s₁.length s₂)).code := by
    simp only [woven, hreturns, List.length_append, length_relocate]
    exact wovenCode_wovenCode hb hs hinside hfrom hsnippet
  have hlocals : ((b.woven s₁).woven s₂).maxLocals =
      (b.woven (s₁ ++ relocate s₁.length s₂)).maxLocals := by
    rw [woven, hreturns']
    simp only [woven, hreturns]
    rfl
  exact eq_of_parts_eq hlocals rfl hcode

/-- A snippet that returns nowhere in front of a body adds no returns. -/
theorem returnsSomewhere_prefixed (hs : ReturnsNowhere s₁) :
    (b.prefixed s₁).returnsSomewhere = b.returnsSomewhere := by
  rw [Bool.eq_iff_iff, returnsSomewhere, returnsSomewhere, List.contains_iff_mem,
    List.contains_iff_mem, prefixed, List.mem_append, relocate, List.mem_map]
  constructor
  · rintro (h | ⟨i, hi, hsame⟩)
    · exact absurd rfl (hs _ h)
    · cases i with
      | retValue => exact hi
      | _ => cases hsame
  · exact fun h ↦ .inr ⟨_, h, rfl⟩

/-- It makes no difference whether a body gets a snippet that returns nowhere in front before or
after it gets one before its returns. -/
theorem woven_prefixed (hs : ReturnsNowhere s₁) (hinside : BranchesInside s₁)
    (hb : BranchesInside b.code) (hlength : s₁.length + b.code.length < UInt32.size) :
    (b.prefixed s₁).woven s₂ = (b.woven s₂).prefixed s₁ := by
  have hfront : s₁.map (Instruction.mapTarget (movedTarget s₂.length (b.prefixed s₁).code)) =
      s₁ := by
    refine (List.map_congr_left fun i hi ↦ ?_).trans s₁.map_id
    refine (mapTarget_congr fun t ht ↦ ?_).trans i.mapTarget_id
    exact movedTarget_of_le hs (hinside i hi t ht)
  have hrear : wovenCode s₂ b.maxLocals (movedTarget s₂.length (b.prefixed s₁).code ∘
      (· + UInt32.ofNat s₁.length)) s₁.length b.code =
      relocate s₁.length (b.woven s₂).code := by
    rw [woven, relocate_wovenCode, Nat.zero_add]
    refine wovenCode_congr fun i hi t ht ↦ ?_
    have hle := hb i hi t ht
    have hat : (t + UInt32.ofNat s₁.length).toNat = s₁.length + t.toNat :=
      toNat_add_ofNat (by omega)
    have hrelocated : (relocate s₁.length b.code).take t.toNat =
        relocate s₁.length (b.code.take t.toNat) := List.map_take.symm
    calc movedTarget s₂.length (s₁ ++ relocate s₁.length b.code) (t + UInt32.ofNat s₁.length)
        = UInt32.ofNat (s₁.length + wovenLength s₂.length (b.code.take t.toNat)) := by
          rw [movedTarget_of_toNat_eq hat, wovenLength_of_returnsNowhere hs, hrelocated,
            wovenLength_relocate]
      _ = movedTarget s₂.length b.code t + UInt32.ofNat s₁.length := by
          rw [Nat.add_comm, UInt32.ofNat_add, movedTarget]
  have hcode : ((b.prefixed s₁).woven s₂).code = ((b.woven s₂).prefixed s₁).code := by
    show wovenCode s₂ b.maxLocals _ 0 (s₁ ++ relocate s₁.length b.code) = _
    rw [wovenCode_append, wovenCode_of_returnsNowhere hs, wovenCode_relocate,
      wovenLength_of_returnsNowhere hs, Nat.zero_add, hfront, hrear]
    rfl
  have hlocals : ((b.prefixed s₁).woven s₂).maxLocals = ((b.woven s₂).prefixed s₁).maxLocals := by
    rw [woven, returnsSomewhere_prefixed hs]
    rfl
  exact eq_of_parts_eq hlocals rfl hcode

/-- The branches of a body lead to instructions also with a snippet before each return. -/
theorem targets_woven (hb : .retValue ∉ b.code) (hinside : BranchesInside s₁)
    (htargets : ∀ i ∈ b.code, ∀ t ∈ i.target?, t.toNat < b.code.length)
    (hlength : wovenLength s₁.length b.code < UInt32.size) :
    ∀ i ∈ (b.woven s₁).code, ∀ t ∈ i.target?, t.toNat < (b.woven s₁).code.length := by
  intro i hi t ht
  rw [length_woven]
  rcases exists_of_mem_wovenCode hb hi with ⟨j, hj, rfl⟩ | ⟨before, after, hsplit, hi⟩
  · rw [Option.mem_def, Instruction.target?_mapTarget, Option.map_eq_some_iff] at ht
    obtain ⟨u, hu, rfl⟩ := ht
    rw [toNat_movedTarget hlength]
    exact wovenLength_take_lt (htargets j hj u hu)
  · obtain ⟨j, hj, rfl⟩ := List.mem_map.mp hi
    rw [Option.mem_def, Instruction.target?_mapTarget, Option.map_eq_some_iff] at ht
    obtain ⟨u, hu, rfl⟩ := ht
    have hle := hinside j hj u hu
    have hroom : wovenLength s₁.length before + s₁.length < wovenLength s₁.length b.code := by
      rw [hsplit, wovenLength_append, wovenLength_cons, Instruction.expandedLength]
      omega
    rw [Nat.zero_add, toNat_add_ofNat (by omega)]
    omega

/-- The branches of a body lead to instructions just if they do with a snippet in front. -/
theorem targets_prefixed_iff (hb : BranchesInside b.code) (hne : b.code ≠ [])
    (hinside : BranchesInside s₁) (hlength : s₁.length + b.code.length < UInt32.size) :
    (∀ i ∈ (b.prefixed s₁).code, ∀ t ∈ i.target?, t.toNat < (b.prefixed s₁).code.length) ↔
      ∀ i ∈ b.code, ∀ t ∈ i.target?, t.toNat < b.code.length := by
  have hpos := List.length_pos_iff.mpr hne
  rw [length_prefixed]
  constructor
  · intro h i hi t ht
    have hle := hb i hi t ht
    have hlt := h (i.mapTarget (· + UInt32.ofNat s₁.length))
      (List.mem_append_right _ (List.mem_map_of_mem hi)) (t + UInt32.ofNat s₁.length)
      (by rw [Option.mem_def, Instruction.target?_mapTarget, Option.mem_def.mp ht,
        Option.map_some])
    rw [toNat_add_ofNat (by omega)] at hlt
    omega
  · intro h i hi t ht
    rcases List.mem_append.mp hi with hi | hi
    · have hle := hinside i hi t ht
      omega
    · obtain ⟨j, hj, rfl⟩ := List.mem_map.mp hi
      rw [Option.mem_def, Instruction.target?_mapTarget, Option.map_eq_some_iff] at ht
      obtain ⟨u, hu, rfl⟩ := ht
      have hlt := h j hj u hu
      rw [toNat_add_ofNat (by omega)]
      omega

/-- Snippets in front, one after the other, are one snippet in front. -/
theorem insertBefore_insertBefore (h₁ : BranchesInside s₁) (h₂ : BranchesInside s₂) :
    (b.insertBefore s₁ >>= (·.insertBefore s₂)).toOption =
      (b.insertBefore (s₂ ++ relocate s₂.length s₁)).toOption := by
  refine toOption_eq_of_ok_iff fun b' ↦ ?_
  simp only [bind_eq_ok, insertBefore_eq_ok_iff]
  constructor
  · rintro ⟨_, ⟨-, -, rfl⟩, -, hlength, rfl⟩
    rw [length_prefixed] at hlength
    refine ⟨branchesInside_append_relocate h₂ h₁, ?_, (prefixed_prefixed b s₁ s₂).symm⟩
    rw [List.length_append, length_relocate]
    omega
  · rintro ⟨-, hlength, rfl⟩
    rw [List.length_append, length_relocate] at hlength
    refine ⟨_, ⟨h₁, by omega, rfl⟩, h₂, ?_, prefixed_prefixed b s₁ s₂⟩
    rw [length_prefixed]
    omega

/-- Snippets before the returns, one after the other, are one snippet there. -/
theorem insertAfter_insertAfter (h₁ : BranchesInside s₁) (h₂ : BranchesInside s₂)
    (hb : .retValue ∉ b.code) (hs : ReturnsNowhere s₁) :
    (b.insertAfter s₁ >>= (·.insertAfter s₂)).toOption =
      (b.insertAfter (s₁ ++ relocate s₁.length s₂)).toOption := by
  have hlengths : wovenLength s₂.length (b.woven s₁).code =
      wovenLength (s₁ ++ relocate s₁.length s₂).length b.code := by
    rw [List.length_append, length_relocate]
    exact wovenLength_wovenCode hb hs s₂.length
  have hreturns : b.returnsSomewhere = true → b.maxLocals ≠ 0xFFFF := by
    intro h
    exact absurd (List.contains_iff_mem.mp h) hb
  have hreturns' : (b.woven s₁).returnsSomewhere = true → (b.woven s₁).maxLocals ≠ 0xFFFF := by
    intro h
    exact absurd (List.contains_iff_mem.mp h) (retValue_not_mem_wovenCode hb hs)
  refine toOption_eq_of_ok_iff fun b' ↦ ?_
  simp only [bind_eq_ok, insertAfter_eq_ok_iff]
  constructor
  · rintro ⟨_, ⟨-, -, hlength, htargets, rfl⟩, -, -, hlength', -, rfl⟩
    rw [hlengths] at hlength'
    exact ⟨branchesInside_append_relocate h₁ h₂, hreturns, hlength', htargets,
      (woven_woven hb hs h₁ hlength).symm⟩
  · rintro ⟨-, -, hlength', htargets, rfl⟩
    have hlength : wovenLength s₁.length b.code < UInt32.size := by
      refine Nat.lt_of_le_of_lt (wovenLength_mono ?_) hlength'
      rw [List.length_append]
      exact Nat.le_add_right _ _
    exact ⟨_, ⟨h₁, hreturns, hlength, htargets, rfl⟩, h₂, hreturns', hlengths ▸ hlength',
      targets_woven hb h₁ htargets hlength, woven_woven hb hs h₁ hlength⟩

/-- A snippet in front and one before the returns are woven in in any order. -/
theorem insertBefore_insertAfter (hb : BranchesInside b.code) (h₁ : BranchesInside s₁)
    (h₂ : BranchesInside s₂) (hne : b.code ≠ []) (hs : ReturnsNowhere s₁) :
    (b.insertBefore s₁ >>= (·.insertAfter s₂)).toOption =
      (b.insertAfter s₂ >>= (·.insertBefore s₁)).toOption := by
  have hlengths : wovenLength s₂.length (b.prefixed s₁).code =
      s₁.length + (b.woven s₂).code.length := by
    rw [prefixed, wovenLength_append, wovenLength_of_returnsNowhere hs, wovenLength_relocate,
      length_woven]
  have hshorter : b.code.length ≤ (b.woven s₂).code.length := by
    rw [length_woven]
    exact length_le_wovenLength
  refine toOption_eq_of_ok_iff fun b' ↦ ?_
  simp only [bind_eq_ok, insertBefore_eq_ok_iff, insertAfter_eq_ok_iff]
  constructor
  · rintro ⟨_, ⟨-, hlength, rfl⟩, -, hspill, hlength', htargets, rfl⟩
    rw [returnsSomewhere_prefixed hs] at hspill
    rw [targets_prefixed_iff hb hne h₁ hlength] at htargets
    rw [hlengths] at hlength'
    refine ⟨_, ⟨h₂, hspill, ?_, htargets, rfl⟩, h₁, hlength',
      (woven_prefixed hs h₁ hb hlength).symm⟩
    rw [length_woven] at hlength'
    omega
  · rintro ⟨_, ⟨-, hspill, -, htargets, rfl⟩, -, hlength', rfl⟩
    have hlength : s₁.length + b.code.length < UInt32.size := by omega
    refine ⟨_, ⟨h₁, hlength, rfl⟩, h₂, ?_, hlengths ▸ hlength', ?_,
      woven_prefixed hs h₁ hb hlength⟩
    · rw [returnsSomewhere_prefixed hs]
      exact hspill
    · exact (targets_prefixed_iff hb hne h₁ hlength).mpr htargets

/-- Weaving one snippet after the other. Whatever the lengths, both ways to weave fail, or both give
the same body with the same locals and the same declared depth. In front, a second snippet comes to
stand before the first, so that both are one snippet in which the first is moved behind the second.
Before the returns a second snippet comes to stand behind the first, unless a value is returned,
which each snippet would spill, or the first snippet returns, before which the second would come as
well. In front and before the returns, snippets do not get in each other's way if the one in front
does not return and is in front of something. -/
theorem weaving_in_turn (b : Body) (s₁ s₂ : List Instruction) (hb : BranchesInside b.code)
    (h₁ : BranchesInside s₁) (h₂ : BranchesInside s₂) :
    (b.insertBefore s₁ >>= (·.insertBefore s₂)).toOption =
        (b.insertBefore (s₂ ++ relocate s₂.length s₁)).toOption ∧
      (.retValue ∉ b.code → .ret ∉ s₁ → .retValue ∉ s₁ →
        (b.insertAfter s₁ >>= (·.insertAfter s₂)).toOption =
          (b.insertAfter (s₁ ++ relocate s₁.length s₂)).toOption) ∧
      (b.code ≠ [] → .ret ∉ s₁ → .retValue ∉ s₁ →
        (b.insertBefore s₁ >>= (·.insertAfter s₂)).toOption =
          (b.insertAfter s₂ >>= (·.insertBefore s₁)).toOption) := by
  refine ⟨insertBefore_insertBefore h₁ h₂, fun hresult hret hretValue ↦ ?_,
    fun hne hret hretValue ↦ ?_⟩
  · exact insertAfter_insertAfter h₁ h₂ hresult (returnsNowhere_of_not_mem hret hretValue)
  · exact insertBefore_insertAfter hb h₁ h₂ hne (returnsNowhere_of_not_mem hret hretValue)

/-- A body with a loop that is left by either of two returns. -/
def twoExits : Body :=
  ⟨1, 1, [.load 0, .jumpIf .zero 3, .ret, .load 0, .jumpIf .nonZero 0, .ret]⟩

/-- A snippet that leads to its end from the middle. -/
def skipping : List Instruction := [.load 0, .jumpIf .zero 3, .nop]

/-- A snippet that returns by itself or leads to its end. -/
def leaving : List Instruction := [.load 0, .jumpIf .nonZero 3, .ret]

/-- The body with the snippets woven in, each way. -/
theorem twoExits_weaving_in_turn :
    (BranchesInside twoExits.code ∧ BranchesInside skipping ∧ BranchesInside leaving ∧
      .retValue ∉ twoExits.code ∧ twoExits.code ≠ [] ∧ .ret ∉ skipping ∧ .retValue ∉ skipping) ∧
    (twoExits.insertBefore skipping >>= (·.insertBefore leaving)).toOption =
      some ⟨1, 1, [.load 0, .jumpIf .nonZero 3, .ret, .load 0, .jumpIf .zero 6, .nop,
        .load 0, .jumpIf .zero 9, .ret, .load 0, .jumpIf .nonZero 6, .ret]⟩ ∧
    (twoExits.insertAfter skipping >>= (·.insertAfter leaving)).toOption =
      some ⟨1, 1, [.load 0, .jumpIf .zero 9,
        .load 0, .jumpIf .zero 5, .nop, .load 0, .jumpIf .nonZero 8, .ret, .ret,
        .load 0, .jumpIf .nonZero 0,
        .load 0, .jumpIf .zero 14, .nop, .load 0, .jumpIf .nonZero 17, .ret, .ret]⟩ ∧
    (twoExits.insertBefore skipping >>= (·.insertAfter leaving)).toOption =
      some ⟨1, 1, [.load 0, .jumpIf .zero 3, .nop, .load 0, .jumpIf .zero 9,
        .load 0, .jumpIf .nonZero 8, .ret, .ret, .load 0, .jumpIf .nonZero 3,
        .load 0, .jumpIf .nonZero 14, .ret, .ret]⟩ := by
  have hbody : BranchesInside twoExits.code := by decide
  have hskipping : BranchesInside skipping := by decide
  have hleaving : BranchesInside leaving := by decide
  have hresult : .retValue ∉ twoExits.code := by decide
  have hne : twoExits.code ≠ [] := by decide
  have hret : .ret ∉ skipping := by decide
  have hretValue : .retValue ∉ skipping := by decide
  obtain ⟨hfront, hreturns, hboth⟩ :=
    weaving_in_turn twoExits skipping leaving hbody hskipping hleaving
  refine ⟨⟨hbody, hskipping, hleaving, hresult, hne, hret, hretValue⟩, hfront.trans ?_,
    (hreturns hresult hret hretValue).trans ?_, (hboth hne hret hretValue).trans ?_⟩
  · cbv
  · cbv
  · cbv

end Body

end Hotswap
