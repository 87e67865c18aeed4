import Hotswap.Proofs.Results
import Hotswap.Proofs.SourceNames

/-!
# Which texts name types in source

A text names a type just if the type can be named and the text spells it: with blanks only around
the name at the bottom and behind pairs of brackets. Any other text is malformed, and the error
tells what stood in the place of the name.
-/

namespace Hotswap

open Text DescriptorScan

/-- Nothing but blanks. -/
def Blanks (cs : List Char) : Prop := ∀ c ∈ cs, isBlank c = true

/-- The texts that spell a type: the name of its bottom between blanks and, for each dimension, a
pair of brackets with blanks behind it. -/
inductive Ty.Spells : Ty → List Char → Prop where
  | name {t : Ty} {before after : List Char} (ht : t.dimensions = 0) (hbefore : Blanks before)
    (hafter : Blanks after) : t.Spells (before ++ t.sourceName.toList ++ after)
  | brackets {t : Ty} {cs after : List Char} (hcs : t.Spells cs) (hafter : Blanks after) :
    t.array.Spells (cs ++ '[' :: ']' :: after)

/-! ### Blanks -/

theorem Blanks.reverse {cs : List Char} (h : Blanks cs) : Blanks cs.reverse :=
  fun c hc ↦ h c (List.mem_reverse.mp hc)

theorem Blanks.append {cs cs' : List Char} (h : Blanks cs) (h' : Blanks cs') : Blanks (cs ++ cs') :=
  fun c hc ↦ (List.mem_append.mp hc).elim (h c) (h' c)

/-- Blanks in front are cut off. -/
theorem trimFront_append {blanks : List Char} (h : Blanks blanks) (cs : List Char) :
    trimFront (blanks ++ cs) = trimFront cs :=
  List.dropWhile_append_of_pos h

/-- A text is what is left of it behind blanks. -/
theorem exists_eq_append_trimFront (cs : List Char) :
    ∃ blanks, Blanks blanks ∧ cs = blanks ++ trimFront cs :=
  ⟨cs.takeWhile isBlank, List.all_eq_true.mp List.all_takeWhile,
    List.takeWhile_append_dropWhile.symm⟩

/-- Nothing is cut off behind a character that is no blank. -/
theorem trimFront_append_of_head {cs rest : List Char} {c : Char} (hc : isBlank c = false) :
    trimFront (cs ++ c :: rest) = trimFront cs ++ c :: rest := by
  have hrest : (c :: rest).dropWhile isBlank = c :: rest :=
    List.dropWhile_cons_of_neg (by simp [hc])
  rw [trimFront, trimFront, List.dropWhile_append, hrest]
  split
  · next hnil => rw [List.isEmpty_iff.mp hnil, List.nil_append]
  · rfl

/-- A text that is written backwards names what it names without the blanks in front. -/
theorem ofBackwards_append {blanks : List Char} (h : Blanks blanks) (cs : List Char) :
    Ty.ofBackwards (blanks ++ cs) = Ty.ofBackwards cs := by
  have hbrackets : beforeBrackets? (blanks ++ cs) = beforeBrackets? cs := by
    rw [beforeBrackets?, beforeBrackets?, trimFront_append h]
  cases hcs : beforeBrackets? cs with
  | some element =>
    rw [ofBackwards_of_some (hbrackets.trans hcs), ofBackwards_of_some hcs]
  | none =>
    rw [ofBackwards_of_none (hbrackets.trans hcs), ofBackwards_of_none hcs, trimFront_append h]

/-- Brackets end a text if only blanks follow them. -/
theorem exists_of_beforeBrackets {cs element : List Char}
    (h : beforeBrackets? cs = some element) :
    ∃ blanks, Blanks blanks ∧ cs.reverse = element.reverse ++ '[' :: ']' :: blanks := by
  obtain ⟨blanks, hblanks, hcs⟩ := exists_eq_append_trimFront cs
  rw [beforeBrackets?] at h
  split at h
  · next rest hrest =>
    cases h
    refine ⟨blanks.reverse, hblanks.reverse, ?_⟩
    rw [hcs, hrest]
    simp
  · cases h

/-! ### Names at the bottom -/

/-- The characters of a qualified name, and its segments, are those of a class name in source. -/
theorem isQualifiedName_iff {cs : List Char} : isQualifiedName cs = true ↔
    (∀ s ∈ segments '.' cs, s ≠ []) ∧
      ∀ c ∈ cs, isBlank c = false ∧ c ∉ [';', '[', ']', '/', '(', ')'] := by
  have hchar : ∀ c, isNameChar c = true ↔
      isBlank c = false ∧ c ∉ [';', '[', ']', '/', '(', ')'] := by
    intro c
    simp [isNameChar, and_assoc]
  simp only [isQualifiedName, List.all_eq_true, Bool.and_eq_true, hchar]
  constructor
  · intro h
    refine ⟨fun s hs ↦ by simpa using (h s hs).1, fun c hc ↦ ?_⟩
    have hcs : ['.'].intercalate (segments '.' cs) = cs := by
      rw [segments_eq_splitOn, List.intercalate_splitOn]
    rw [← hcs] at hc
    rcases eq_or_mem_of_mem_intercalate hc with rfl | ⟨s, hs, hmem⟩
    · decide
    · exact (h s hs).2 c hmem
  · rintro ⟨hsegments, hchars⟩ s hs
    exact ⟨by simpa using hsegments s hs, fun c hc ↦ hchars c (mem_of_mem_segments hs hc).1⟩

namespace Ty

/-- A text without brackets and outer blanks names just the type of which it is the name. -/
theorem ofBaseName_eq_ok {cs : List Char} {t : Ty} : ofBaseName cs = .ok t ↔
    t.dimensions = 0 ∧ t.Nameable ∧ t.sourceName.toList = cs := by
  constructor
  · intro h
    simp only [ofBaseName] at h
    split at h
    · next kind hkind =>
      cases h
      have hkeyword : kind.keyword = String.ofList cs := by
        simpa using List.find?_some hkind
      refine ⟨rfl, ⟨Ty.noConfusion, fun _ hname ↦ by cases hname⟩, ?_⟩
      rw [sourceName, hkeyword, String.toList_ofList]
    · next hkind =>
      split at h
      · cases h
      · next hname =>
        cases h
        simp only [Bool.or_eq_true, beq_iff_eq, Bool.not_eq_true', not_or, Bool.not_eq_false]
          at hname
        obtain ⟨hsegments, hchars⟩ := isQualifiedName_iff.mp hname.2
        refine ⟨rfl, ⟨Ty.noConfusion, fun name heq ↦ ?_⟩, String.toList_ofList⟩
        cases heq
        refine ⟨by rwa [String.toList_ofList], by rwa [String.toList_ofList], fun kind heq ↦ ?_,
          hname.1⟩
        have hother := List.find?_eq_none.mp hkind kind (by cases kind <;> decide)
        exact absurd heq.symm (by simpa using hother)
  · rintro ⟨ht, hname, rfl⟩
    cases t with
    | void => exact absurd rfl hname.bottom
    | prim kind => rw [sourceName, ofBaseName, String.ofList_toList, Primitive.ofKeyword?_keyword]
    | cls name => exact (hname.className name rfl).ofBaseName
    | array e => exact absurd ht (Nat.succ_ne_zero _)

/-- A text without brackets and outer blanks that names no type is malformed. -/
theorem ofBaseName_eq_error {cs : List Char} {e : Error} (h : ofBaseName cs = .error e) :
    e = .malformed (.typeName (String.ofList cs)) := by
  simp only [ofBaseName] at h
  split at h
  · cases h
  · split at h
    · cases h
      rfl
    · cases h

/-! ### Spellings -/

variable {t : Ty} {cs : List Char}

/-- Blanks may stand in front of a spelling. -/
theorem Spells.append_left {blanks : List Char} (hblanks : Blanks blanks) (h : t.Spells cs) :
    t.Spells (blanks ++ cs) := by
  induction h with
  | name ht hbefore hafter =>
    have hspells := Spells.name ht (hblanks.append hbefore) hafter
    simpa only [List.append_assoc] using hspells
  | brackets hcs hafter ih =>
    rw [← List.append_assoc]
    exact .brackets ih hafter

/-- What a text names can be named, and the text spells it. -/
theorem spells_of_ofBackwards (h : ofBackwards cs = .ok t) : t.Nameable ∧ t.Spells cs.reverse := by
  induction cs using Ty.ofBackwards.induct generalizing t with
  | case1 cs element helement ih =>
    rw [ofBackwards_of_some helement] at h
    obtain ⟨e, he, rfl⟩ := map_eq_ok.mp h
    obtain ⟨hname, hspells⟩ := ih he
    obtain ⟨blanks, hblanks, hcs⟩ := exists_of_beforeBrackets helement
    rw [hcs]
    exact ⟨⟨hname.bottom, hname.className⟩, .brackets hspells hblanks⟩
  | case2 cs hnone =>
    rw [ofBackwards_of_none hnone] at h
    obtain ⟨ht, hname, hcs⟩ := ofBaseName_eq_ok.mp h
    obtain ⟨blanks, hblanks, hsplit⟩ := exists_eq_append_trimFront cs
    refine ⟨hname, ?_⟩
    rw [hsplit, List.reverse_append, ← hcs]
    exact @Spells.name t [] _ ht (List.forall_mem_nil _) hblanks.reverse

/-- The name of a type that can be named is not empty. -/
theorem Nameable.toList_sourceName_ne_nil (h : t.Nameable) (ht : t.dimensions = 0) :
    t.sourceName.toList ≠ [] := by
  intro hnil
  have hread : ofBaseName [] = .ok t := ofBaseName_eq_ok.mpr ⟨ht, h, hnil⟩
  cases hread

/-- A text that spells a type that can be named is read as the type. -/
theorem ofBackwards_of_spells (hname : t.Nameable) (h : t.Spells cs) :
    ofBackwards (trimFront cs).reverse = .ok t := by
  induction h with
  | @name t before after ht hbefore hafter =>
    have hread : ofBackwards t.sourceName.toList.reverse = .ok t := by
      have := ofSourceName_sourceName hname
      rwa [ofSourceName, trimFront_eq_self hname.isBlank_eq_false] at this
    have hfront : trimFront (t.sourceName.toList ++ after) = t.sourceName.toList ++ after := by
      obtain ⟨c, rest, hcs⟩ := List.exists_cons_of_ne_nil (hname.toList_sourceName_ne_nil ht)
      have hc : isBlank c = false := hname.isBlank_eq_false c (hcs ▸ .head _)
      rw [hcs]
      exact @trimFront_append_of_head [] (rest ++ after) c hc
    rw [List.append_assoc, trimFront_append hbefore, hfront, List.reverse_append,
      ofBackwards_append hafter.reverse, hread]
  | @brackets t cs after hcs hafter ih =>
    have hread := ih ⟨hname.bottom, hname.className⟩
    have hsplit : '[' :: ']' :: after = ['[', ']'] ++ after := rfl
    rw [trimFront_append_of_head (by decide), hsplit, ← List.append_assoc, List.reverse_append,
      ofBackwards_append hafter.reverse, ofBackwards_brackets, hread]
    rfl

/-- A text that names no type is malformed. -/
theorem ofBackwards_eq_error {e : Error} (h : ofBackwards cs = .error e) :
    ∃ name, e = .malformed (.typeName name) := by
  induction cs using Ty.ofBackwards.induct with
  | case1 cs element helement ih =>
    rw [ofBackwards_of_some helement] at h
    exact ih (map_eq_error.mp h)
  | case2 cs hnone =>
    rw [ofBackwards_of_none hnone] at h
    exact ⟨_, ofBaseName_eq_error h⟩

/-- A text names just the type that it spells, if that can be named. -/
theorem ofSourceName_eq_ok {s : String} :
    ofSourceName s = .ok t ↔ t.Nameable ∧ t.Spells s.toList := by
  constructor
  · intro h
    obtain ⟨hname, hspells⟩ := spells_of_ofBackwards h
    obtain ⟨blanks, hblanks, hs⟩ := exists_eq_append_trimFront s.toList
    rw [List.reverse_reverse] at hspells
    rw [hs]
    exact ⟨hname, hspells.append_left hblanks⟩
  · rintro ⟨hname, hspells⟩
    exact ofBackwards_of_spells hname hspells

end Ty

/-- The names of classes in source are made of segments with dots between them, none of them empty
or with a blank or a mark in it, and are no keywords. -/
theorem isSourceClassName_iff {name : String} : IsSourceClassName name ↔
    (∃ parts : List (List Char), parts ≠ [] ∧
      (∀ part ∈ parts, part ≠ [] ∧
        ∀ c ∈ part, c ≠ '.' ∧ isBlank c = false ∧ c ∉ [';', '[', ']', '/', '(', ')']) ∧
      name.toList = ['.'].intercalate parts) ∧
    (∀ kind : Primitive, name ≠ kind.keyword) ∧ name ≠ "void" := by
  rw [exists_parts_iff]
  constructor
  · intro h
    exact ⟨⟨h.segments, fun c hc ↦ .inr (h.chars c hc)⟩, h.keyword, h.void⟩
  · rintro ⟨⟨hsegments, hchars⟩, hkeyword, hvoid⟩
    refine ⟨hsegments, fun c hc ↦ ?_, hkeyword, hvoid⟩
    rcases hchars c hc with rfl | hallowed
    · decide
    · exact hallowed

/-- The name of a type is read as the type exactly when the type can be named, and a text is read as
a type exactly when the type can be named and the text spells it: its name with blanks around what
is at the bottom and behind pairs of brackets. A type can be named if it is not void at the bottom
and its class has a name of segments that are not empty and hold no blank and no mark, and that is
no keyword. All other texts are malformed. -/
theorem ofSourceName_reads_spellings :
    (∀ t : Ty, Ty.ofSourceName t.sourceName = .ok t ↔ t.Nameable) ∧
    (∀ (s : String) (t : Ty), Ty.ofSourceName s = .ok t ↔ t.Nameable ∧ t.Spells s.toList) ∧
    (∀ s : String, (∃ name, Ty.ofSourceName s = .error (.malformed (.typeName name))) ↔
      ¬∃ t : Ty, t.Nameable ∧ t.Spells s.toList) ∧
    (∀ t : Ty, t.Nameable ↔ t.bottom ≠ .void ∧ ∀ name ∈ t.className?,
      (∃ parts : List (List Char), parts ≠ [] ∧
        (∀ part ∈ parts, part ≠ [] ∧
          ∀ c ∈ part, c ≠ '.' ∧ isBlank c = false ∧ c ∉ [';', '[', ']', '/', '(', ')']) ∧
        name.toList = ['.'].intercalate parts) ∧
      (∀ kind : Primitive, name ≠ kind.keyword) ∧ name ≠ "void") := by
  refine ⟨fun t ↦ ?_, fun _ _ ↦ Ty.ofSourceName_eq_ok, fun s ↦ ?_, fun t ↦ ?_⟩
  · exact ⟨fun h ↦ (Ty.ofSourceName_eq_ok.mp h).1, Ty.ofSourceName_sourceName⟩
  · simp only [← Ty.ofSourceName_eq_ok]
    constructor
    · rintro ⟨name, herror⟩ ⟨t, hread⟩
      rw [herror] at hread
      cases hread
    · intro hnone
      cases hread : Ty.ofSourceName s with
      | ok t => exact absurd ⟨t, hread⟩ hnone
      | error e =>
        obtain ⟨name, rfl⟩ := Ty.ofBackwards_eq_error hread
        exact ⟨name, rfl⟩
  · simp only [← isSourceClassName_iff]
    exact ⟨fun h ↦ ⟨h.bottom, h.className⟩, fun h ↦ ⟨h.1, h.2⟩⟩

/-- Blanks stand wherever they may. -/
example : Ty.ofSourceName " k.P\t[] [] " = .ok (.array (.array (.cls "k.P"))) := by cbv

/-- A pair of brackets is not torn apart. -/
example : Ty.ofSourceName "int[ ]" = .error (.malformed (.typeName "int[ ]")) := by cbv

end Hotswap
