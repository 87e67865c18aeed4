import Mathlib.Data.Set.Function
import Hotswap.Proofs.Descriptors

/-!
# Which texts are descriptors

The texts that are read as types are exactly the descriptors of the types that can be described.
No two such types share a descriptor, and descriptors that stand one behind the other can be told
apart.
-/

namespace Hotswap

namespace DescriptorScan

/-! ### Names made of segments -/

/-- The segments of a name are its parts between the separators. -/
theorem segments_eq_splitOn (sep : Char) (cs : List Char) : segments sep cs = cs.splitOn sep := by
  induction cs with
  | nil => simp [segments]
  | cons c cs ih =>
    rw [segments, List.splitOn_cons_eq_if_modifyHead, ih]
    by_cases h : c = sep
    · simp [h]
    · simp only [h, if_false, beq_iff_eq]
      cases hparts : cs.splitOn sep with
      | nil => exact absurd hparts (List.splitOn_ne_nil sep cs)
      | cons s ss => rfl

/-- A segment holds characters of the name, but no separator. -/
theorem mem_of_mem_segments {sep c : Char} {cs s : List Char} (hs : s ∈ segments sep cs)
    (hc : c ∈ s) : c ∈ cs ∧ c ≠ sep := by
  induction cs generalizing s with
  | nil =>
    rw [segments, List.mem_singleton] at hs
    subst hs
    cases hc
  | cons d cs ih =>
    rw [segments] at hs
    split at hs
    · rcases List.mem_cons.mp hs with rfl | hs
      · cases hc
      · exact ⟨.tail _ (ih hs hc).1, (ih hs hc).2⟩
    · next hd =>
      split at hs
      · next hnil =>
        rw [segments_eq_splitOn] at hnil
        exact absurd hnil (List.splitOn_ne_nil sep cs)
      · next first rest hparts =>
        rcases List.mem_cons.mp hs with rfl | hs
        · rcases List.mem_cons.mp hc with rfl | hc
          · exact ⟨.head _, hd⟩
          · have := ih (hparts ▸ .head _) hc
            exact ⟨.tail _ this.1, this.2⟩
        · have := ih (hparts ▸ .tail _ hs) hc
          exact ⟨.tail _ this.1, this.2⟩

/-- Parts with separators between them hold separators and what the parts hold. -/
theorem eq_or_mem_of_mem_intercalate {sep c : Char} {parts : List (List Char)}
    (h : c ∈ [sep].intercalate parts) : c = sep ∨ ∃ s ∈ parts, c ∈ s := by
  induction parts with
  | nil => cases h
  | cons s parts ih =>
    by_cases hparts : parts = []
    · subst hparts
      rw [List.intercalate_singleton] at h
      exact .inr ⟨s, .head _, h⟩
    · rw [List.intercalate_cons_of_ne_nil hparts, List.append_assoc, List.singleton_append,
        List.mem_append, List.mem_cons] at h
      rcases h with h | rfl | h
      · exact .inr ⟨s, .head _, h⟩
      · exact .inl rfl
      · rcases ih h with rfl | ⟨s', hs', hc⟩
        · exact .inl rfl
        · exact .inr ⟨s', .tail _ hs', hc⟩

/-- A name is made of segments with dots between them just if none of its segments is empty and it
holds nothing but dots and what segments may hold. -/
theorem exists_parts_iff {Q : Char → Prop} {cs : List Char} :
    (∃ parts : List (List Char), parts ≠ [] ∧
      (∀ s ∈ parts, s ≠ [] ∧ ∀ c ∈ s, c ≠ '.' ∧ Q c) ∧ cs = ['.'].intercalate parts) ↔
      (∀ s ∈ segments '.' cs, s ≠ []) ∧ ∀ c ∈ cs, c = '.' ∨ Q c := by
  constructor
  · rintro ⟨parts, hne, hparts, rfl⟩
    have hdot : ∀ s ∈ parts, '.' ∉ s := by
      intro s hs hmem
      exact ((hparts s hs).2 '.' hmem).1 rfl
    refine ⟨?_, fun c hc ↦ ?_⟩
    · rw [segments_eq_splitOn, List.splitOn_intercalate '.' hdot hne]
      exact fun s hs ↦ (hparts s hs).1
    · rcases eq_or_mem_of_mem_intercalate hc with rfl | ⟨s, hs, hmem⟩
      · exact .inl rfl
      · exact .inr ((hparts s hs).2 c hmem).2
  · rintro ⟨hsegments, hchars⟩
    refine ⟨segments '.' cs, ?_, fun s hs ↦ ⟨hsegments s hs, fun c hc ↦ ?_⟩, ?_⟩
    · rw [segments_eq_splitOn]
      exact List.splitOn_ne_nil '.' cs
    · obtain ⟨hmem, hdot⟩ := mem_of_mem_segments hs hc
      exact ⟨hdot, (hchars c hmem).resolve_left hdot⟩
    · rw [segments_eq_splitOn, List.intercalate_splitOn]

end DescriptorScan

open DescriptorScan

/-- A descriptor can hold a class name that is made of segments with dots between them, none of
them empty or with a mark of descriptors in it. -/
theorem isClassName_iff {name : String} :
    IsClassName name ↔ ∃ parts : List (List Char), parts ≠ [] ∧
      (∀ s ∈ parts, s ≠ [] ∧ ∀ c ∈ s, c ∉ ['.', '/', ';', '[', '(', ')']) ∧
      name.toList = ['.'].intercalate parts := by
  simp only [List.mem_cons (b := '.'), not_or]
  rw [exists_parts_iff]
  constructor
  · intro h
    exact ⟨h.segments, fun c hc ↦ .inr (h.marks c hc)⟩
  · rintro ⟨hsegments, hchars⟩
    refine ⟨hsegments, fun c hc ↦ ?_⟩
    rcases hchars c hc with rfl | hmarks
    · decide
    · exact hmarks

/-! ### One reading -/

/-- What is read from exactly one text is told apart by that text. -/
theorem injOn_of_reads {α : Type} {P : α → Prop} {read : String → Except Error α}
    {write : α → String} (h : ∀ s a, read s = .ok a ↔ P a ∧ write a = s) :
    Set.InjOn write {a | P a} := by
  intro a ha b hb hab
  have hread : read (write a) = .ok a := (h _ _).mpr ⟨ha, rfl⟩
  have hread' : read (write a) = .ok b := (h _ _).mpr ⟨hb, hab.symm⟩
  exact Except.ok.inj (hread.symm.trans hread')

/-- The descriptor of a type is not the front of the descriptor of another one. -/
theorem Ty.descriptorChars_append_inj {t u : Ty} (ht : t.Describable) (hu : u.Describable)
    {rest rest' : List Char} (h : t.descriptorChars ++ rest = u.descriptorChars ++ rest') :
    t = u ∧ rest = rest' := by
  have hread := fieldTypeFrom_append ht "" 0 (by simpa using ht.dimensions) rest
  have hread' := fieldTypeFrom_append hu "" 0 (by simpa using hu.dimensions) rest'
  rw [h, hread'] at hread
  cases hread
  exact ⟨rfl, rfl⟩

theorem Ty.descriptorChars_ne_nil (t : Ty) : t.descriptorChars ≠ [] := by
  cases t <;> simp [descriptorChars]

/-- Descriptors one behind the other come from one list of types. -/
theorem Ty.flatMap_descriptorChars_inj {ts us : List Ty} (ht : ∀ t ∈ ts, t.Describable)
    (hu : ∀ u ∈ us, u.Describable)
    (h : ts.flatMap descriptorChars = us.flatMap descriptorChars) : ts = us := by
  induction ts generalizing us with
  | nil =>
    cases us with
    | nil => rfl
    | cons u us =>
      rw [List.flatMap_nil, List.flatMap_cons] at h
      exact absurd (List.append_eq_nil_iff.mp h.symm).1 u.descriptorChars_ne_nil
  | cons t ts ih =>
    cases us with
    | nil =>
      rw [List.flatMap_nil, List.flatMap_cons] at h
      exact absurd (List.append_eq_nil_iff.mp h).1 t.descriptorChars_ne_nil
    | cons u us =>
      rw [List.flatMap_cons, List.flatMap_cons] at h
      obtain ⟨rfl, hrest⟩ := descriptorChars_append_inj (ht t (.head _)) (hu u (.head _)) h
      rw [ih (fun t' h' ↦ ht t' (.tail _ h')) (fun u' h' ↦ hu u' (.tail _ h')) hrest]

/-- A text is read as a method type or as a type exactly when that can be described and the text is
its descriptor. What can be described is not void, except as the whole result of a method, has at
most 255 dimensions and names its class by segments that are not empty and hold no mark. So method
types and types that can be described are told apart by their descriptors, and lists of types by
their descriptors one behind the other. -/
theorem ofDescriptor_reads_exactly :
    (∀ (s : String) (m : MethodTy),
      MethodTy.ofDescriptor s = .ok m ↔ m.Describable ∧ m.descriptor = s) ∧
    (∀ (s : String) (t : Ty), Ty.ofDescriptor s = .ok t ↔ t.Describable ∧ t.descriptor = s) ∧
    (∀ name : String, IsClassName name ↔ ∃ parts : List (List Char), parts ≠ [] ∧
      (∀ part ∈ parts, part ≠ [] ∧ ∀ c ∈ part, c ∉ ['.', '/', ';', '[', '(', ')']) ∧
      name.toList = ['.'].intercalate parts) ∧
    Set.InjOn MethodTy.descriptor {m | m.Describable} ∧
    Set.InjOn Ty.descriptor {t | t.Describable} ∧
    Set.InjOn (List.flatMap Ty.descriptorChars) {ts | ∀ t ∈ ts, t.Describable} := by
  refine ⟨fun _ _ ↦ MethodTy.ofDescriptor_eq_ok, fun _ _ ↦ Ty.ofDescriptor_eq_ok,
    fun _ ↦ isClassName_iff, injOn_of_reads fun _ _ ↦ MethodTy.ofDescriptor_eq_ok,
    injOn_of_reads fun _ _ ↦ Ty.ofDescriptor_eq_ok, ?_⟩
  intro ts ht us hu h
  exact Ty.flatMap_descriptorChars_inj ht hu h

end Hotswap
