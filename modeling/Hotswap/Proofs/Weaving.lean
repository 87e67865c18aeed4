import Mathlib.Algebra.Ring.Nat
import Hotswap.Code.Weave
import Hotswap.Proofs.Results

/-!
# Where woven code stands

The code that comes of weaving a snippet in before each return: which instructions stand for an
instruction of the body, and where. All positions are sums of lengths, and none of them exceeds
what a branch can name.
-/

namespace Hotswap

/-! ### Parts of a flattened list -/

/-- A part of a flattened list stands behind all parts before it. -/
theorem getElem?_flatten_part {α : Type} {parts : List (List α)} {part : List α} {k n : Nat}
    (h : parts[k]? = some part) (hn : n < part.length) :
    parts.flatten[((parts.take k).map List.length).sum + n]? = part[n]? := by
  induction parts generalizing k with
  | nil => simp at h
  | cons first rest ih =>
    cases k with
    | zero =>
      obtain rfl : first = part := by simpa using h
      rw [List.flatten_cons, List.take_zero, List.map_nil, List.sum_nil, Nat.zero_add,
        List.getElem?_append_left hn]
    | succ k =>
      have hrest := ih (k := k) (by simpa using h)
      rw [List.flatten_cons, List.take_succ_cons, List.map_cons, List.sum_cons, Nat.add_assoc,
        List.getElem?_append_right (Nat.le_add_right _ _), Nat.add_sub_cancel_left]
      exact hrest

/-- Lengths add up from wherever they begin. -/
theorem foldl_add_eq {α : Type} (length : α → Nat) (start : Nat) (items : List α) :
    items.foldl (fun start i ↦ start + length i) start = start + (items.map length).sum := by
  induction items generalizing start with
  | nil => rfl
  | cons i items ih => rw [List.foldl_cons, ih, List.map_cons, List.sum_cons, Nat.add_assoc]

/-! ### Positions -/

/-- Where the instructions begin that stand for the instruction at an index. -/
def startOf (snippetLength : Nat) (code : List Instruction) (index : Nat) : Nat :=
  (expansionStarts snippetLength code).toArray.getD index 0

variable {snippetLength : Nat} {code : List Instruction}

theorem startOf_eq_sum {index : Nat} (h : index ≤ code.length) :
    startOf snippetLength code index =
      ((code.take index).map (Instruction.expandedLength snippetLength)).sum := by
  rw [startOf, expansionStarts, Array.getD_eq_getD_getElem?, List.getElem?_toArray,
    List.getElem?_scanl, if_pos h, Option.getD_some, foldl_add_eq, Nat.zero_add]

/-- The code begins where its first instruction does. -/
@[simp] theorem startOf_zero : startOf snippetLength code 0 = 0 := by
  rw [startOf_eq_sum (Nat.zero_le _), List.take_zero, List.map_nil, List.sum_nil]

/-- An instruction begins where the one before it ends. -/
theorem startOf_succ {index : Nat} {i : Instruction} (h : code[index]? = some i) :
    startOf snippetLength code (index + 1) =
      startOf snippetLength code index + i.expandedLength snippetLength := by
  have hlt : index < code.length := by
    by_cases hlt : index < code.length
    · exact hlt
    · rw [List.getElem?_eq_none (Nat.le_of_not_lt hlt)] at h
      cases h
  rw [startOf_eq_sum hlt, startOf_eq_sum (Nat.le_of_lt hlt), List.take_add_one, h, List.map_append,
    List.sum_append]
  simp

/-- No instruction begins behind the end of the code. -/
theorem startOf_le {index : Nat} (h : index ≤ code.length) :
    startOf snippetLength code index ≤ startOf snippetLength code code.length := by
  rw [startOf_eq_sum h, startOf_eq_sum (Nat.le_refl _), List.take_length]
  have hsplit : (code.map (Instruction.expandedLength snippetLength)).sum =
      ((code.take index).map (Instruction.expandedLength snippetLength)).sum +
        ((code.drop index).map (Instruction.expandedLength snippetLength)).sum := by
    rw [← List.sum_append, ← List.map_append, List.take_append_drop]
  omega

/-- Every index of the woven code is one of the instructions that stand for some instruction. -/
theorem exists_startOf {pos : Nat} (h : pos < startOf snippetLength code code.length) :
    ∃ k i n, code[k]? = some i ∧ n < i.expandedLength snippetLength ∧
      pos = startOf snippetLength code k + n := by
  have hupto : ∀ m ≤ code.length, pos < startOf snippetLength code m →
      ∃ k i n, code[k]? = some i ∧ n < i.expandedLength snippetLength ∧
        pos = startOf snippetLength code k + n := by
    intro m hm hpos
    induction m with
    | zero =>
      rw [startOf_zero] at hpos
      omega
    | succ m ih =>
      by_cases hbefore : pos < startOf snippetLength code m
      · exact ih (by omega) hbefore
      · have hi : code[m]? = some code[m] := List.getElem?_eq_getElem (by omega)
        rw [startOf_succ hi] at hpos
        exact ⟨m, code[m], pos - startOf snippetLength code m, hi, by omega, by omega⟩
  exact hupto code.length (Nat.le_refl _) h

/-! ### Checks -/

/-- A snippet passes the check when its branches lead into it or to its end. -/
theorem checkBranches_of_target_le {snippet : List Instruction}
    (h : ∀ i ∈ snippet, ∀ t, i.target? = some t → t.toNat ≤ snippet.length) :
    checkBranches snippet = .ok () := by
  rw [checkBranches, forM_eq_ok]
  rintro ⟨i, n⟩ hmem
  have hi : i ∈ snippet := (List.mem_zipIdx' hmem).2 ▸ List.getElem_mem _
  cases ht : i.target? with
  | none => simp only [ht]
  | some t =>
    have := h i hi t ht
    simp only [ht]
    rw [if_neg (by omega)]

theorem checkLength_eq_ok {length : Nat} : checkLength length = .ok () ↔ length < UInt32.size := by
  rw [checkLength]
  split
  · next h => simp [h]
  · next h => simp [h]

/-- A snippet goes before the code of a body when its branches stay inside and the result has 32
bits of indices. -/
theorem Body.insertBefore_eq_ok {b b' : Body} {snippet : List Instruction} :
    b.insertBefore snippet = .ok b' ↔ checkBranches snippet = .ok () ∧
      snippet.length + b.code.length < UInt32.size ∧
      b' = { b with code := snippet ++ relocate snippet.length b.code } := by
  constructor
  · intro h
    obtain ⟨⟨⟩, hbranches, h⟩ := bind_eq_ok.mp h
    obtain ⟨⟨⟩, -, h⟩ := bind_eq_ok.mp h
    obtain ⟨⟨⟩, hlength, h⟩ := bind_eq_ok.mp h
    exact ⟨hbranches, checkLength_eq_ok.mp hlength, (Except.ok.inj h).symm⟩
  · rintro ⟨hbranches, hlength, rfl⟩
    have hshort : snippet.length < UInt32.size := by omega
    rw [insertBefore, hbranches, checkLength_eq_ok.mpr hshort, checkLength_eq_ok.mpr hlength]
    rfl

/-! ### The code before each return -/

/-- Leaving targets as they are changes no instruction. -/
@[simp] theorem Instruction.mapTarget_id (i : Instruction) : i.mapTarget id = i := by
  cases i <;> rfl

/-- The branches of a checked snippet lead into it or to its end. -/
theorem target_le_of_checkBranches {snippet : List Instruction}
    (h : checkBranches snippet = .ok ()) :
    ∀ i ∈ snippet, ∀ t, i.target? = some t → t.toNat ≤ snippet.length := by
  intro i hi t ht
  obtain ⟨n, hn⟩ := List.mem_iff_getElem?.mp hi
  have hmem : (i, n) ∈ snippet.zipIdx := by
    rw [List.mem_iff_getElem?]
    exact ⟨n, by rw [List.getElem?_zipIdx, hn]; simp⟩
  have hcheck := forM_eq_ok.mp h (i, n) hmem
  simp only [ht] at hcheck
  split at hcheck
  · cases hcheck
  · omega

theorem length_relocate (distance : Nat) (snippet : List Instruction) :
    (relocate distance snippet).length = snippet.length := by
  rw [relocate, List.length_map]

/-- An instruction that does not return stands for itself. -/
theorem Instruction.expandedLength_of_flow {i : Instruction} (h : i.flow ≠ .leave)
    (snippetLength : Nat) : i.expandedLength snippetLength = 1 := by
  cases i with
  | ret | retValue => exact absurd rfl h
  | _ => rfl

/-- As many instructions stand for an instruction as is said. -/
theorem Instruction.length_expand {i : Instruction} {snippet part : List Instruction}
    {spill : UInt16} {starts : Array Nat} {index : Nat}
    (h : i.expand snippet spill starts index = .ok part) :
    part.length = i.expandedLength snippet.length := by
  cases i with
  | ret =>
    cases h
    simp [length_relocate, expandedLength]
  | retValue =>
    cases h
    simp [length_relocate, expandedLength]
  | jump t | jumpIf c t =>
    simp only [expand, target?] at h
    split at h
    · cases h
      rfl
    · cases h
  | _ =>
    cases h
    rfl

/-- No instruction begins too far behind if the last ones do not end there. -/
theorem forM_checkLength_eq_ok :
    (expansionStarts snippetLength code).forM checkLength = .ok () ↔
      startOf snippetLength code code.length < UInt32.size := by
  have hstart : ∀ k ≤ code.length,
      (expansionStarts snippetLength code)[k]? = some (startOf snippetLength code k) := by
    intro k hk
    have hlt : k < (expansionStarts snippetLength code).length := by
      rw [expansionStarts, List.length_scanl]
      omega
    rw [startOf, Array.getD_eq_getD_getElem?, List.getElem?_toArray, List.getElem?_eq_getElem hlt,
      Option.getD_some]
  rw [forM_eq_ok]
  constructor
  · intro h
    exact checkLength_eq_ok.mp (h _ (List.mem_of_getElem? (hstart _ (Nat.le_refl _))))
  · intro h start hmem
    obtain ⟨k, hlt, rfl⟩ := List.mem_iff_getElem.mp hmem
    rw [expansionStarts, List.length_scanl] at hlt
    have hk := Nat.le_of_lt_succ hlt
    have hle : startOf snippetLength code k ≤ startOf snippetLength code code.length := startOf_le hk
    rw [checkLength_eq_ok, (List.getElem?_eq_some_iff.mp (hstart k hk)).2]
    omega

/-- What is known of a body into which a snippet was woven before each return. -/
structure Body.Woven (b b' : Body) (snippet : List Instruction) : Prop where
  branches : ∀ i ∈ snippet, ∀ t, i.target? = some t → t.toNat ≤ snippet.length
  length : b'.code.length = startOf snippet.length b.code b.code.length
  small : b'.code.length < UInt32.size
  maxLocals : b'.maxLocals.toNat = b.maxLocals.toNat + if b.returnsSomewhere then 1 else 0
  part : ∀ (k : Nat) (i : Instruction), b.code[k]? = some i →
    ∃ part, i.expand snippet b.maxLocals (expansionStarts snippet.length b.code).toArray k =
        .ok part ∧
      ∀ n < part.length, b'.code[startOf snippet.length b.code k + n]? = part[n]?

/-- Weaving a snippet in before each return gives such a body. -/
theorem Body.woven_insertAfter {b b' : Body} {snippet : List Instruction}
    (h : b.insertAfter snippet = .ok b') : b.Woven b' snippet := by
  obtain ⟨⟨⟩, hbranches, h⟩ := bind_eq_ok.mp h
  have hspill : ¬(b.returnsSomewhere && b.maxLocals == 0xFFFF) = true := by
    intro hfull
    simp only [hfull, if_true] at h
    cases h
  simp only [hspill] at h
  obtain ⟨⟨⟩, hlength, h⟩ := bind_eq_ok.mp h
  obtain ⟨parts, hparts, h⟩ := bind_eq_ok.mp h
  cases h
  obtain ⟨hcount, hpart⟩ := getElem?_of_mapM hparts
  rw [List.length_zipIdx] at hcount
  have hat : ∀ (k : Nat) (i : Instruction), b.code[k]? = some i → ∃ part, parts[k]? = some part ∧
      i.expand snippet b.maxLocals (expansionStarts snippet.length b.code).toArray k =
        .ok part := by
    intro k i hi
    exact hpart k (i, k) (by rw [List.getElem?_zipIdx, hi]; simp)
  have hlengths : parts.map List.length =
      b.code.map (Instruction.expandedLength snippet.length) := by
    apply List.ext_getElem?
    intro k
    rw [List.getElem?_map, List.getElem?_map]
    cases hi : b.code[k]? with
    | none =>
      rw [List.getElem?_eq_none_iff] at hi
      rw [List.getElem?_eq_none (by omega)]
      rfl
    | some i =>
      obtain ⟨part, hk, hexpand⟩ := hat k i hi
      rw [hk, Option.map_some, Option.map_some, Instruction.length_expand hexpand]
  have hstart : ∀ k ≤ b.code.length,
      startOf snippet.length b.code k = ((parts.take k).map List.length).sum := by
    intro k hk
    rw [startOf_eq_sum hk, List.map_take, List.map_take, hlengths]
  have htotal : parts.flatten.length = startOf snippet.length b.code b.code.length := by
    rw [hstart _ (Nat.le_refl _), ← hcount, List.take_length, List.length_flatten]
  constructor
  case branches => exact target_le_of_checkBranches hbranches
  case length => exact htotal
  case small =>
    show parts.flatten.length < UInt32.size
    rw [htotal]
    exact forM_checkLength_eq_ok.mp hlength
  case maxLocals =>
    show (if b.returnsSomewhere = true then b.maxLocals + 1 else b.maxLocals).toNat = _
    split
    · next hreturns =>
      have hne : b.maxLocals ≠ 0xFFFF := by
        intro hfull
        rw [hreturns, hfull] at hspill
        exact hspill rfl
      have hlt : b.maxLocals.toNat ≠ 65535 := fun he ↦ hne (UInt16.toNat_inj.mp he)
      have hle := b.maxLocals.toNat_lt
      rw [UInt16.toNat_add]
      show (b.maxLocals.toNat + 1) % 65536 = _
      omega
    · rfl
  case part =>
    intro k i hi
    obtain ⟨part, hk, hexpand⟩ := hat k i hi
    refine ⟨part, hexpand, fun n hn ↦ ?_⟩
    have hle : k ≤ b.code.length := by
      have hlt := (List.getElem?_eq_some_iff.mp hk).1
      omega
    rw [hstart k hle]
    exact getElem?_flatten_part hk hn

/-- A snippet goes before each return of a body when its branches stay inside, as those of the body
do, a local is left for the returned value and the result has 32 bits of indices. -/
theorem Body.exists_insertAfter {b : Body} {snippet : List Instruction}
    (hbranches : ∀ i ∈ snippet, ∀ t, i.target? = some t → t.toNat ≤ snippet.length)
    (htargets : ∀ i ∈ b.code, ∀ t, i.target? = some t → t.toNat < b.code.length)
    (hspill : b.returnsSomewhere = false ∨ b.maxLocals < 0xFFFF)
    (hlength : startOf snippet.length b.code b.code.length < UInt32.size) :
    ∃ b', b.insertAfter snippet = .ok b' := by
  have hfree : (b.returnsSomewhere && b.maxLocals == 0xFFFF) = false := by
    rcases hspill with hnone | hlt
    · rw [hnone, Bool.false_and]
    · rw [Bool.and_eq_false_iff]
      right
      rw [beq_eq_false_iff_ne]
      rintro hfull
      rw [hfull] at hlt
      exact absurd hlt (by decide)
  have hexpand : ∀ p ∈ b.code.zipIdx, ∃ part, p.1.expand snippet b.maxLocals
      (expansionStarts snippet.length b.code).toArray p.2 = .ok part := by
    rintro ⟨i, index⟩ hmem
    have hi : i ∈ b.code := (List.mem_zipIdx' hmem).2 ▸ List.getElem_mem _
    have htarget := htargets i hi
    cases i with
    | jump t | jumpIf c t =>
      have hlt : t.toNat + 1 < (expansionStarts snippet.length b.code).toArray.size := by
        rw [List.size_toArray, expansionStarts, List.length_scanl]
        have := htarget t rfl
        omega
      exact ⟨_, if_pos hlt⟩
    | _ => exact ⟨_, rfl⟩
  obtain ⟨parts, hparts⟩ := exists_mapM_eq_ok hexpand
  have hfits := forM_checkLength_eq_ok.mpr hlength
  rw [insertAfter, checkBranches_of_target_le hbranches]
  simp only [hfree, hfits, hparts]
  exact ⟨_, rfl⟩

/-- A snippet stands in a code, with its branches moved to where it begins. -/
def SnippetAt (code snippet : List Instruction) (start : Nat) : Prop :=
  ∀ (n : Nat) (i : Instruction), snippet[n]? = some i →
    code[start + n]? = some (i.mapTarget (· + UInt32.ofNat start))

/-- A moved branch leads as far behind where the snippet begins as it led into the snippet. -/
theorem toNat_add_ofNat {start : Nat} {t : UInt32} (h : start + t.toNat < UInt32.size) :
    (t + UInt32.ofNat start).toNat = start + t.toNat := by
  have hstart : (UInt32.ofNat start).toNat = start := UInt32.toNat_ofNat_of_lt' (by omega)
  rw [UInt32.toNat_add, hstart, Nat.add_comm, Nat.mod_eq_of_lt h]

/-- A relocated snippet stands where its code does. -/
theorem snippetAt_relocate {code snippet : List Instruction} {start : Nat}
    (h : ∀ n < snippet.length, code[start + n]? = (relocate start snippet)[n]?) :
    SnippetAt code snippet start := by
  intro n i hi
  rw [h n (List.getElem?_eq_some_iff.mp hi).1, relocate, List.getElem?_map, hi, Option.map_some]

namespace Body.Woven

variable {b b' : Body} {snippet : List Instruction} {k : Nat}

/-- The positions in a woven code can be named by branches. -/
theorem toNat_ofNat (h : b.Woven b' snippet) {n : Nat} (hn : n ≤ b'.code.length) :
    (UInt32.ofNat n).toNat = n :=
  UInt32.toNat_ofNat_of_lt' (Nat.lt_of_le_of_lt hn h.small)

theorem startOf_le_length (h : b.Woven b' snippet) (hk : k ≤ b.code.length) :
    startOf snippet.length b.code k ≤ b'.code.length := by
  rw [h.length]
  exact startOf_le hk

/-- An instruction that does not leave the method stays one instruction; its branch leads to where
its target begins. -/
theorem getElem?_of_flow (h : b.Woven b' snippet) {i : Instruction} (hi : b.code[k]? = some i)
    (hflow : i.flow ≠ .leave) :
    b'.code[startOf snippet.length b.code k]? = some (i.mapTarget fun t ↦
        UInt32.ofNat (startOf snippet.length b.code t.toNat)) ∧
      ∀ t, i.target? = some t → t.toNat < b.code.length := by
  obtain ⟨part, hexpand, hpart⟩ := h.part k i hi
  have hlen := Instruction.length_expand hexpand
  have hstarts : (expansionStarts snippet.length b.code).toArray.size = b.code.length + 1 := by
    rw [List.size_toArray, expansionStarts, List.length_scanl]
  have hfirst := hpart 0
  rw [Nat.add_zero] at hfirst
  cases i with
  | ret | retValue => exact absurd rfl hflow
  | jump t | jumpIf c t =>
    simp only [Instruction.expand, Instruction.target?] at hexpand
    split at hexpand
    · next hlt =>
      cases hexpand
      refine ⟨hfirst (by simp), fun u hu ↦ ?_⟩
      cases hu
      omega
    · cases hexpand
  | _ =>
    cases hexpand
    exact ⟨hfirst (by simp), fun t ht ↦ by cases ht⟩

/-- The snippet stands in front of a return without a value. -/
theorem ret (h : b.Woven b' snippet) (hi : b.code[k]? = some .ret) :
    SnippetAt b'.code snippet (startOf snippet.length b.code k) ∧
      b'.code[startOf snippet.length b.code k + snippet.length]? = some .ret := by
  obtain ⟨part, hexpand, hpart⟩ := h.part k _ hi
  cases hexpand
  simp only [List.length_append, length_relocate, List.length_singleton] at hpart
  constructor
  · refine snippetAt_relocate fun n hn ↦ ?_
    rw [hpart n (by omega), List.getElem?_append_left (by rwa [length_relocate])]
    rfl
  · rw [hpart snippet.length (by omega),
      List.getElem?_append_right (Nat.le_of_eq (length_relocate _ _)), length_relocate,
      Nat.sub_self]
    rfl

/-- The snippet stands in front of a return with a value, between storing the value and loading
it. -/
theorem retValue (h : b.Woven b' snippet) (hi : b.code[k]? = some .retValue) :
    b'.code[startOf snippet.length b.code k]? = some (.store b.maxLocals) ∧
      SnippetAt b'.code snippet (startOf snippet.length b.code k + 1) ∧
      b'.code[startOf snippet.length b.code k + 1 + snippet.length]? = some (.load b.maxLocals) ∧
      b'.code[startOf snippet.length b.code k + 1 + snippet.length + 1]? = some .retValue := by
  obtain ⟨part, hexpand, hpart⟩ := h.part k _ hi
  cases hexpand
  simp only [List.cons_append, List.length_cons, List.length_append, length_relocate,
    List.length_nil] at hpart
  refine ⟨hpart 0 (by omega), snippetAt_relocate fun n hn ↦ ?_, ?_, ?_⟩
  · rw [Nat.add_assoc, Nat.add_comm 1 n, hpart (n + 1) (by omega), List.getElem?_cons_succ,
      List.getElem?_append_left (by rwa [length_relocate])]
    rfl
  · rw [Nat.add_assoc, Nat.add_comm 1, hpart (snippet.length + 1) (by omega),
      List.getElem?_cons_succ, List.getElem?_append_right (Nat.le_of_eq (length_relocate _ _)),
      length_relocate, Nat.sub_self]
    rfl
  · rw [Nat.add_assoc, Nat.add_assoc, ← Nat.add_assoc 1, Nat.add_comm 1, Nat.add_assoc,
      hpart (snippet.length + (1 + 1)) (by omega), ← Nat.add_assoc, List.getElem?_cons_succ,
      List.getElem?_append_right (by rw [length_relocate]; omega), length_relocate,
      Nat.add_sub_cancel_left]
    rfl

end Body.Woven

end Hotswap
