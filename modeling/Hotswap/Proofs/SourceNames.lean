import Hotswap.Proofs.DescriptorTexts
import Hotswap.Types.SourceName

/-!
# Types by their source names

The name of a type as it is written in source is read as that type, if it can be named at all: if it
is not void and its class has a name of its own, which is no keyword and holds nothing but segments
with dots between them.
-/

namespace Hotswap

open Text DescriptorScan

/-- A dotted class name that can be written in source. -/
structure IsSourceClassName (name : String) : Prop where
  segments : ∀ s ∈ DescriptorScan.segments '.' name.toList, s ≠ []
  chars : ∀ c ∈ name.toList, isBlank c = false ∧ c ∉ [';', '[', ']', '/', '(', ')']
  keyword : ∀ kind : Primitive, name ≠ kind.keyword
  void : name ≠ "void"

/-- A type that can be named in source. -/
structure Ty.Nameable (t : Ty) : Prop where
  bottom : t.bottom ≠ .void
  className : ∀ name, t.className? = some name → IsSourceClassName name

/-- What is no blank at the front stays. -/
theorem trimFront_eq_self {cs : List Char} (h : ∀ c ∈ cs, isBlank c = false) :
    trimFront cs = cs := by
  cases cs with
  | nil => rfl
  | cons c cs => exact List.dropWhile_cons_of_neg (by simp [h c (.head _)])

namespace IsSourceClassName

variable {name : String}

theorem isQualifiedName (h : IsSourceClassName name) :
    Hotswap.isQualifiedName name.toList = true := by
  refine List.all_eq_true.mpr fun s hs ↦ ?_
  rw [Bool.and_eq_true, List.all_eq_true]
  refine ⟨by simpa using h.segments s hs, fun c hc ↦ ?_⟩
  obtain ⟨hblank, hmarks⟩ := h.chars c (mem_of_mem_segments hs hc).1
  simp only [List.mem_cons, List.not_mem_nil, or_false, not_or] at hmarks
  simp [isNameChar, hblank, hmarks]

theorem ofBaseName (h : IsSourceClassName name) : Ty.ofBaseName name.toList = .ok (.cls name) := by
  have hkeyword : Primitive.ofKeyword? name = none := by
    refine List.find?_eq_none.mpr fun kind _ ↦ ?_
    simpa using Ne.symm (h.keyword kind)
  simp [Ty.ofBaseName, String.ofList_toList, hkeyword, h.void, h.isQualifiedName]

end IsSourceClassName

/-- A text that ends in brackets names an array. -/
theorem ofBackwards_of_some {cs element : List Char} (h : beforeBrackets? cs = some element) :
    Ty.ofBackwards cs = (Ty.ofBackwards element).map .array := by
  rw [Ty.ofBackwards]
  split
  · next element' h' =>
    rw [h] at h'
    cases h'
    rfl
  · next hnone =>
    rw [h] at hnone
    cases hnone

/-- A text that does not end in brackets names the type at the bottom. -/
theorem ofBackwards_of_none {cs : List Char} (h : beforeBrackets? cs = none) :
    Ty.ofBackwards cs = Ty.ofBaseName (trimFront cs).reverse := by
  rw [Ty.ofBackwards]
  split
  · next element h' =>
    rw [h] at h'
    cases h'
  · rfl

/-- A text without blanks and without a bracket at its end has no dimension. -/
theorem ofBackwards_eq_ofBaseName {cs : List Char}
    (h : ∀ c ∈ cs, isBlank c = false ∧ c ≠ ']') : Ty.ofBackwards cs.reverse = Ty.ofBaseName cs := by
  have htrim : trimFront cs.reverse = cs.reverse :=
    trimFront_eq_self fun c hc ↦ (h c (List.mem_reverse.mp hc)).1
  have hnone : beforeBrackets? cs.reverse = none := by
    rw [beforeBrackets?, htrim]
    split
    · next rest hrest =>
      have hmem : ']' ∈ cs.reverse := hrest ▸ .head _
      exact absurd rfl (h ']' (List.mem_reverse.mp hmem)).2
    · rfl
  rw [ofBackwards_of_none hnone, htrim, List.reverse_reverse]

/-- A pair of brackets behind a text is one dimension more. -/
theorem ofBackwards_brackets (cs : List Char) :
    Ty.ofBackwards (cs ++ ['[', ']']).reverse = (Ty.ofBackwards cs.reverse).map .array := by
  refine ofBackwards_of_some ?_
  rw [List.reverse_append]
  rfl

/-- A keyword holds no blank and no bracket. -/
theorem Primitive.chars_keyword (kind : Primitive) :
    ∀ c ∈ kind.keyword.toList, isBlank c = false ∧ c ≠ ']' := by
  have hall : kind.keyword.toList.all (fun c ↦ !isBlank c && c != ']') = true := by
    cases kind <;> decide
  simpa using hall

namespace Ty

/-- A name that can be written holds no blank. -/
theorem Nameable.isBlank_eq_false {t : Ty} (h : t.Nameable) :
    ∀ c ∈ t.sourceName.toList, isBlank c = false := by
  induction t with
  | void => exact absurd rfl h.bottom
  | prim kind => exact fun c hc ↦ (kind.chars_keyword c hc).1
  | cls name => exact fun c hc ↦ ((h.className name rfl).chars c hc).1
  | array e ih =>
    intro c hc
    rw [sourceName, String.toList_append, List.mem_append] at hc
    rcases hc with hc | hc
    · exact ih ⟨h.bottom, h.className⟩ c hc
    · obtain rfl | rfl : c = '[' ∨ c = ']' := by simpa using hc
      · rfl
      · rfl

/-- The name of a type is read as the type. -/
theorem ofSourceName_sourceName {t : Ty} (h : t.Nameable) : ofSourceName t.sourceName = .ok t := by
  rw [ofSourceName, trimFront_eq_self h.isBlank_eq_false]
  induction t with
  | void => exact absurd rfl h.bottom
  | prim kind =>
    rw [sourceName, ofBackwards_eq_ofBaseName kind.chars_keyword, ofBaseName, String.ofList_toList,
      Primitive.ofKeyword?_keyword]
  | cls name =>
    have hname := h.className name rfl
    rw [sourceName, ofBackwards_eq_ofBaseName, hname.ofBaseName]
    intro c hc
    obtain ⟨hblank, hmarks⟩ := hname.chars c hc
    exact ⟨hblank, fun heq ↦ hmarks (by simp [heq])⟩
  | array e ih =>
    rw [sourceName, String.toList_append]
    show ofBackwards (e.sourceName.toList ++ ['[', ']']).reverse = _
    rw [ofBackwards_brackets, ih ⟨h.bottom, h.className⟩]
    rfl

end Ty

end Hotswap
