import Hotswap.Proofs.WeavingLaws

/-!
# Where the branches of woven code lead

A body takes a snippet just if all branches lead somewhere and a local is left for a result that
has to wait. The targets of the woven code are reckoned in 32 bits; they are those that come of
reckoning without bounds, and all of them are instructions of the woven code.
-/

namespace Hotswap

/-- Where the branch of an instruction leads, as a number without bounds. -/
def Instruction.destination? (i : Instruction) : Option Nat := i.target?.map UInt32.toNat

open Instruction (destination?)

-- Keeps what is said of a branch from being decided by going through all targets there are.
instance (i : Instruction) (P : UInt32 → Prop) [DecidablePred P] :
    Decidable (∀ t ∈ i.target?, P t) :=
  decidable_of_iff (i.target?.all (P ·) = true) (by simp [Option.all_eq_true])

/-- Where the branches of an instruction's stand-ins lead, reckoned without bounds: those of the
snippet from where its copy begins, a branch of the instruction itself as given. -/
def Instruction.standInDestinations (snippet : List Instruction) (moved : Nat → Nat)
    (start : Nat) : Instruction → List (Option Nat)
  | ret => snippet.map (fun j ↦ j.destination?.map (start + ·)) ++ [none]
  | retValue => none :: snippet.map (fun j ↦ j.destination?.map (start + 1 + ·)) ++ [none, none]
  | i => [i.destination?.map moved]

/-- Where the branches of woven code lead, reckoned without bounds. -/
def wovenDestinations (snippet : List Instruction) (moved : Nat → Nat) :
    Nat → List Instruction → List (Option Nat)
  | _, [] => []
  | start, i :: code =>
    i.standInDestinations snippet moved start ++
      wovenDestinations snippet moved (start + i.expandedLength snippet.length) code

section

variable {snippet code : List Instruction} {spill : UInt16} {start limit : Nat}

/-! ### Reckoning in 32 bits -/

/-- Branches that are moved by a distance lead as far behind it as they led, if that has 32 bits. -/
theorem destinations_relocate {distance : Nat}
    (h : ∀ i ∈ code, ∀ t ∈ i.target?, distance + t.toNat < UInt32.size) :
    (relocate distance code).map destination? =
      code.map fun i ↦ i.destination?.map (distance + ·) := by
  rw [relocate, List.map_map]
  refine List.map_congr_left fun i hi ↦ ?_
  rw [Function.comp_apply, destination?, Instruction.target?_mapTarget, destination?,
    Option.map_map, Option.map_map]
  refine Option.map_congr fun t ht ↦ ?_
  exact toNat_add_ofNat (h i hi t ht)

/-- The branches of a snippet that is moved stay in 32 bits if its end does. -/
theorem destinations_relocate_of_branchesInside (hinside : BranchesInside snippet)
    (h : start + snippet.length < UInt32.size) :
    (relocate start snippet).map destination? =
      snippet.map fun i ↦ i.destination?.map (start + ·) := by
  refine destinations_relocate fun i hi t ht ↦ ?_
  have := hinside i hi t ht
  omega

/-- The branches of stand-ins lead where they do without bounds, if the stand-ins end in 32 bits. -/
theorem destinations_standIns {i : Instruction} {moved : UInt32 → UInt32} {moved' : Nat → Nat}
    (hinside : BranchesInside snippet) (hmoved : ∀ t, (moved t).toNat = moved' t.toNat)
    (h : start + i.expandedLength snippet.length < UInt32.size) :
    (i.standIns snippet spill moved start).map destination? =
      i.standInDestinations snippet moved' start := by
  by_cases hflow : i.flow = .leave
  · cases i with
    | ret =>
      have h : start + (snippet.length + 1) < UInt32.size := h
      rw [Instruction.standIns, List.map_append,
        destinations_relocate_of_branchesInside hinside (by omega)]
      rfl
    | retValue =>
      have h : start + (snippet.length + 3) < UInt32.size := h
      rw [Instruction.standIns, List.map_append, List.map_cons,
        destinations_relocate_of_branchesInside hinside (by omega)]
      rfl
    | _ => cases hflow
  · have hsingle : i.standInDestinations snippet moved' start = [i.destination?.map moved'] := by
      cases i with
      | ret | retValue => exact absurd rfl hflow
      | _ => rfl
    rw [standIns_of_flow hflow, hsingle, List.map_singleton, destination?,
      Instruction.target?_mapTarget, destination?, Option.map_map, Option.map_map]
    congr 2
    exact funext hmoved

/-- The branches of woven code lead where they do without bounds, if the code ends in 32 bits. -/
theorem destinations_wovenCode {moved : UInt32 → UInt32} {moved' : Nat → Nat}
    (hinside : BranchesInside snippet) (hmoved : ∀ t, (moved t).toNat = moved' t.toNat)
    (h : start + wovenLength snippet.length code < UInt32.size) :
    (wovenCode snippet spill moved start code).map destination? =
      wovenDestinations snippet moved' start code := by
  induction code generalizing start with
  | nil => rfl
  | cons i code ih =>
    rw [wovenLength_cons] at h
    rw [wovenCode, List.map_append, destinations_standIns hinside hmoved (by omega),
      ih (by omega), wovenDestinations]

/-! ### Leading to instructions -/

/-- A copy of a snippet that ends before a limit has branches that lead to places before it. -/
theorem lt_of_mem_destinations (hinside : BranchesInside snippet)
    (h : start + snippet.length < limit) :
    ∀ d ∈ snippet.map fun j ↦ j.destination?.map (start + ·), ∀ n ∈ d, n < limit := by
  intro d hd n hn
  obtain ⟨j, hj, rfl⟩ := List.mem_map.mp hd
  obtain ⟨m, hm, rfl⟩ := Option.map_eq_some_iff.mp hn
  obtain ⟨t, ht, rfl⟩ := Option.map_eq_some_iff.mp hm
  have := hinside j hj t ht
  omega

/-- The branches of stand-ins lead to places before the end of a code, if the stand-ins stand there
and a branch of the instruction leads there. -/
theorem lt_of_mem_standInDestinations {i : Instruction} {moved : Nat → Nat}
    (hinside : BranchesInside snippet) (hmoved : ∀ t ∈ i.target?, moved t.toNat < limit)
    (h : start + i.expandedLength snippet.length ≤ limit) :
    ∀ d ∈ i.standInDestinations snippet moved start, ∀ n ∈ d, n < limit := by
  intro d hd n hn
  by_cases hflow : i.flow = .leave
  · cases i with
    | ret =>
      have h : start + (snippet.length + 1) ≤ limit := h
      rcases List.mem_append.mp hd with hd | hd
      · exact lt_of_mem_destinations hinside (by omega) d hd n hn
      · obtain rfl := List.mem_singleton.mp hd
        cases hn
    | retValue =>
      have h : start + (snippet.length + 3) ≤ limit := h
      rcases List.mem_append.mp hd with hd | hd
      · rcases List.mem_cons.mp hd with rfl | hd
        · cases hn
        · exact lt_of_mem_destinations hinside (by omega) d hd n hn
      · obtain rfl : d = none := by simpa using hd
        cases hn
    | _ => cases hflow
  · obtain rfl : d = i.destination?.map moved := by
      cases i with
      | ret | retValue => exact absurd rfl hflow
      | _ => exact List.mem_singleton.mp hd
    obtain ⟨m, hm, rfl⟩ := Option.map_eq_some_iff.mp hn
    obtain ⟨t, ht, rfl⟩ := Option.map_eq_some_iff.mp hm
    exact hmoved t ht

/-- The branches of woven code lead to places before its end, if those of the code come to. -/
theorem lt_of_mem_wovenDestinations {moved : Nat → Nat} (hinside : BranchesInside snippet)
    (hmoved : ∀ i ∈ code, ∀ t ∈ i.target?, moved t.toNat < limit)
    (h : start + wovenLength snippet.length code ≤ limit) :
    ∀ d ∈ wovenDestinations snippet moved start code, ∀ n ∈ d, n < limit := by
  induction code generalizing start with
  | nil => exact fun d hd ↦ absurd hd List.not_mem_nil
  | cons i code ih =>
    rw [wovenLength_cons] at h
    intro d hd
    rcases List.mem_append.mp hd with hd | hd
    · exact lt_of_mem_standInDestinations hinside (hmoved i (.head _)) (by omega) d hd
    · exact ih (fun j hj ↦ hmoved j (.tail _ hj)) (by omega) d hd

end

/-! ### Bodies -/

namespace Body

variable {b b' : Body} {snippet : List Instruction}

theorem returnsSomewhere_iff : b.returnsSomewhere = true ↔ .retValue ∈ b.code :=
  List.contains_iff_mem

/-- A local is left where the number of locals is not the greatest there is. -/
theorem maxLocals_ne_iff : b.maxLocals ≠ 0xFFFF ↔ b.maxLocals.toNat < 65535 := by
  have hle := b.maxLocals.toNat_lt
  constructor
  · intro h
    have : b.maxLocals.toNat ≠ 65535 := fun heq ↦ h (UInt16.toNat_inj.mp heq)
    omega
  · rintro h heq
    rw [heq] at h
    exact absurd h (by decide)

/-- The branches of a body with a snippet in front: those of the snippet lead where they led, those
of the body as far behind the snippet. -/
theorem destinations_prefixed
    (h : ∀ i ∈ b.code, ∀ t ∈ i.target?, t.toNat + snippet.length < UInt32.size) :
    (b.prefixed snippet).code.map destination? =
      snippet.map destination? ++ b.code.map fun i ↦ i.destination?.map (snippet.length + ·) := by
  rw [prefixed, List.map_append, destinations_relocate]
  intro i hi t ht
  rw [Nat.add_comm]
  exact h i hi t ht

/-- The branches of a body with a snippet before each return: those of the snippet lead as far
behind where its copy begins as they led, those of the body to where the stand-ins of their targets
begin. -/
theorem destinations_woven (hinside : BranchesInside snippet)
    (hlength : wovenLength snippet.length b.code < UInt32.size) :
    (b.woven snippet).code.map destination? =
      wovenDestinations snippet (fun t ↦ wovenLength snippet.length (b.code.take t)) 0 b.code :=
  destinations_wovenCode hinside (fun t ↦ toNat_movedTarget hlength t) (by omega)

/-- All branches of a body with a snippet before each return lead to instructions. -/
theorem target_lt_of_woven (hinside : BranchesInside snippet)
    (htargets : ∀ i ∈ b.code, ∀ t ∈ i.target?, t.toNat < b.code.length)
    (hlength : wovenLength snippet.length b.code < UInt32.size) :
    ∀ i ∈ (b.woven snippet).code, ∀ t ∈ i.target?, t.toNat < (b.woven snippet).code.length := by
  intro i hi t ht
  have hmoved : ∀ j ∈ b.code, ∀ u ∈ j.target?,
      wovenLength snippet.length (b.code.take u.toNat) < wovenLength snippet.length b.code :=
    fun j hj u hu ↦ wovenLength_take_lt (htargets j hj u hu)
  have hmem : some t.toNat ∈ (b.woven snippet).code.map destination? :=
    List.mem_map.mpr ⟨i, hi, congrArg (Option.map UInt32.toNat) ht⟩
  rw [destinations_woven hinside hlength] at hmem
  rw [length_woven]
  exact lt_of_mem_wovenDestinations hinside hmoved (Nat.le_of_eq (Nat.zero_add _)) _ hmem _ rfl

/-- A local more is there just if a result has to wait. -/
theorem maxLocals_woven (h : b.returnsSomewhere = true → b.maxLocals ≠ 0xFFFF) :
    (b.woven snippet).maxLocals.toNat =
      b.maxLocals.toNat + if .retValue ∈ b.code then 1 else 0 := by
  rw [woven]
  by_cases hreturns : b.returnsSomewhere = true
  · have hlt := maxLocals_ne_iff.mp (h hreturns)
    rw [if_pos hreturns, if_pos (returnsSomewhere_iff.mp hreturns), UInt16.toNat_add]
    exact Nat.mod_eq_of_lt (Nat.succ_lt_succ hlt)
  · rw [if_neg hreturns, if_neg fun hmem ↦ hreturns (returnsSomewhere_iff.mpr hmem)]
    rfl

/-- Which snippets a body takes, in front and before each return, and where the branches of the
outcome lead. As long as all indices have 32 bits, a snippet is taken in front just if its branches
lead into it or to its end; before the returns it is taken just if, besides, the branches of the
body lead to instructions and a local is left where a value is returned. No target and no number of
locals goes beyond its bits: each is the one that is reckoned without bounds. What the snippet was
woven into before its returns branches to instructions only and has one local more just if it
returns a value. -/
theorem weaves_within_bounds (b : Body) (snippet : List Instruction) :
    (snippet.length + b.code.length < UInt32.size →
      (∀ i ∈ b.code, ∀ t ∈ i.target?, t.toNat + snippet.length < UInt32.size) →
      ((∃ b', b.insertBefore snippet = .ok b') ↔
        ∀ i ∈ snippet, ∀ t ∈ i.target?, t.toNat ≤ snippet.length) ∧
      ∀ b', b.insertBefore snippet = .ok b' → b'.code.map destination? =
        snippet.map destination? ++
          b.code.map fun i ↦ i.destination?.map (snippet.length + ·)) ∧
    (wovenLength snippet.length b.code < UInt32.size →
      ((∃ b', b.insertAfter snippet = .ok b') ↔
        (∀ i ∈ snippet, ∀ t ∈ i.target?, t.toNat ≤ snippet.length) ∧
        (∀ i ∈ b.code, ∀ t ∈ i.target?, t.toNat < b.code.length) ∧
        (.retValue ∈ b.code → b.maxLocals.toNat < 65535))) ∧
    (∀ b', b.insertAfter snippet = .ok b' →
      (∀ i ∈ b'.code, ∀ t ∈ i.target?, t.toNat < b'.code.length) ∧
      b'.code.length = wovenLength snippet.length b.code ∧ b'.code.length < UInt32.size ∧
      b'.code.map destination? = wovenDestinations snippet
        (fun t ↦ wovenLength snippet.length (b.code.take t)) 0 b.code ∧
      b'.maxLocals.toNat = b.maxLocals.toNat + if .retValue ∈ b.code then 1 else 0) := by
  refine ⟨fun hlength htargets ↦ ⟨?_, ?_⟩, fun hlength ↦ ?_, ?_⟩
  · simp only [insertBefore_eq_ok_iff, hlength, true_and, exists_and_left, exists_eq', and_true]
    rfl
  · intro b' h
    obtain ⟨-, -, rfl⟩ := insertBefore_eq_ok_iff.mp h
    exact destinations_prefixed htargets
  · constructor
    · rintro ⟨b', h⟩
      obtain ⟨hinside, hspill, -, htargets, -⟩ := insertAfter_eq_ok_iff.mp h
      refine ⟨hinside, htargets, fun hreturns ↦ maxLocals_ne_iff.mp (hspill ?_)⟩
      exact returnsSomewhere_iff.mpr hreturns
    · rintro ⟨hinside, htargets, hspill⟩
      refine ⟨_, insertAfter_eq_ok_iff.mpr ⟨hinside, fun hreturns ↦ ?_, hlength, htargets, rfl⟩⟩
      exact maxLocals_ne_iff.mpr (hspill (returnsSomewhere_iff.mp hreturns))
  · intro b' h
    obtain ⟨hinside, hspill, hlength, htargets, rfl⟩ := insertAfter_eq_ok_iff.mp h
    refine ⟨target_lt_of_woven hinside htargets hlength, length_woven b snippet, ?_,
      destinations_woven hinside hlength, maxLocals_woven hspill⟩
    rw [length_woven]
    exact hlength

/-- A body with a loop that returns a value in two places. -/
def twoResults : Body :=
  ⟨2, 1, [.load 0, .jumpIf .zero 4, .load 1, .retValue, .load 0, .jumpIf .nonZero 0, .load 1,
    .retValue]⟩

/-- The body takes a snippet that leads to its end from the middle, in front and before its returns;
with all locals there are it takes none before its returns. -/
theorem twoResults_weaves_within_bounds :
    let snippet : List Instruction := [.load 0, .jumpIf .zero 3, .nop]
    snippet.length + twoResults.code.length < UInt32.size ∧
    (∀ i ∈ twoResults.code, ∀ t ∈ i.target?, t.toNat + snippet.length < UInt32.size) ∧
    wovenLength snippet.length twoResults.code < UInt32.size ∧
    (∃ b', twoResults.insertBefore snippet = .ok b' ∧ b'.code.map destination? =
      [none, some 3, none, none, some 7, none, none, none, some 3, none, none]) ∧
    (∃ b', twoResults.insertAfter snippet = .ok b' ∧ b'.maxLocals.toNat = 3 ∧
      b'.code.map destination? = [none, some 9, none,
        none, none, some 7, none, none, none, none, some 0, none,
        none, none, some 16, none, none, none]) ∧
    ¬∃ b', { twoResults with maxLocals := 0xFFFF }.insertAfter snippet = .ok b' := by
  intro snippet
  have hlength : snippet.length + twoResults.code.length < UInt32.size := by decide
  have htargets : ∀ i ∈ twoResults.code, ∀ t ∈ i.target?,
      t.toNat + snippet.length < UInt32.size := by decide
  have hwoven : wovenLength snippet.length twoResults.code < UInt32.size := by decide
  obtain ⟨hfront, hreturns, hafter⟩ := weaves_within_bounds twoResults snippet
  obtain ⟨hfront, hled⟩ := hfront hlength htargets
  refine ⟨hlength, htargets, hwoven, ?_, ?_, ?_⟩
  · obtain ⟨b', h⟩ := hfront.mpr (by decide)
    exact ⟨b', h, (hled b' h).trans (by decide)⟩
  · obtain ⟨b', h⟩ := (hreturns hwoven).mpr (by decide)
    obtain ⟨-, -, -, hdestinations, hlocals⟩ := hafter b' h
    exact ⟨b', h, hlocals.trans (by decide), hdestinations.trans (by decide)⟩
  · intro h
    obtain ⟨-, -, hspill⟩ :=
      ((weaves_within_bounds { twoResults with maxLocals := 0xFFFF } snippet).2.1 hwoven).mp h
    exact absurd (hspill (by decide)) (by decide)

end Body

end Hotswap
