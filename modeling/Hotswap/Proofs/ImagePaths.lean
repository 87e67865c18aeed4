import Mathlib.Data.List.TakeWhile
import Hotswap.Pool.ImagePath
import Hotswap.Proofs.DescriptorTexts

/-!
# Where the images of classes stand

What matters of a path are its components, the first of which tells whether it is absolute. A class
name goes below the root by its parts, which stand between its dots and slashes; names with the same
parts share their file. Names without parts, and names with a segment that begins with a slash, lead
out of the root.
-/

namespace Hotswap.ImagePath

open DescriptorScan

/-! ### Components -/

theorem names_append_slash (p q : List Char) : names (p ++ '/' :: q) = names p ++ names q := by
  rw [names, segments_eq_splitOn, List.splitOn_append_cons_self, ← segments_eq_splitOn,
    ← segments_eq_splitOn, List.filter_append, names, names]

@[simp] theorem names_nil : names [] = [] := rfl

/-- Names hold characters of the path, but no slash. -/
theorem mem_of_mem_names {p s : List Char} {c : Char} (hs : s ∈ names p) (hc : c ∈ s) :
    c ∈ p ∧ c ≠ '/' :=
  mem_of_mem_segments (List.mem_filter.mp hs).1 hc

/-- Of names that are joined those that name something are left. -/
theorem names_join {ss : List (List Char)} (hne : ss ≠ []) (hslash : ∀ s ∈ ss, '/' ∉ s) :
    names (join ss) = ss.filter (!isVacant ·) := by
  rw [names, join, segments_eq_splitOn, List.splitOn_intercalate '/' hslash hne]

/-- What comes behind a slash changes nothing of what comes before it. -/
theorem components_append_slash (p q : List Char) :
    components (p ++ '/' :: q) = components (p ++ ['/']) ++ names q := by
  have hroot : rootOf (p ++ '/' :: q) = rootOf (p ++ ['/']) := by
    cases p <;> rfl
  rw [components, components, hroot, names_append_slash, names_append_slash, names_nil,
    List.append_nil, List.append_assoc]

/-- A slash at the end names nothing, unless it is the root. -/
theorem components_append_slash_nil {p : List Char} (h : p ≠ []) :
    components (p ++ ['/']) = components p := by
  obtain ⟨c, p, rfl⟩ := List.exists_cons_of_ne_nil h
  rw [components, names_append_slash, names_nil, List.append_nil]
  rfl

/-- A segment that does not begin with a slash comes behind what is there. -/
theorem components_pushBehind {backwards segment : List Char} (h : segment.head? ≠ some '/') :
    components (pushBehind backwards segment).reverse =
      components backwards.reverse ++ names segment := by
  rw [pushBehind, if_neg h]
  cases backwards with
  | nil => simp [components, rootOf, h]
  | cons c backwards =>
    split
    · next hfront =>
      obtain rfl : c = '/' := by simpa using hfront
      rw [List.reverse_append, List.reverse_reverse, List.reverse_cons, List.append_assoc,
        List.singleton_append, components_append_slash]
    · rw [List.reverse_append, List.reverse_reverse, List.reverse_cons, List.append_assoc,
        List.singleton_append, components_append_slash, components_append_slash_nil (by simp)]

/-- Segments that do not begin with slashes come behind a path, one after the other. -/
theorem components_extend {path : List Char} {segments : List (List Char)}
    (h : ∀ s ∈ segments, s.head? ≠ some '/') :
    components (extend path segments) = components path ++ segments.flatMap names := by
  have hfold : ∀ backwards : List Char,
      components (segments.foldl pushBehind backwards).reverse =
        components backwards.reverse ++ segments.flatMap names := by
    induction segments with
    | nil => simp
    | cons s segments ih =>
      intro backwards
      rw [List.foldl_cons, ih fun s' hs' ↦ h s' (.tail _ hs'),
        components_pushBehind (h s (.head _)), List.flatMap_cons, List.append_assoc]
  rw [extend, hfold, List.reverse_reverse]

/-- A segment that begins with a slash makes what was there before it not matter. -/
theorem foldl_pushBehind_of_slash {segments : List (List Char)}
    (h : ∃ s ∈ segments, s.head? = some '/') (backwards backwards' : List Char) :
    segments.foldl pushBehind backwards = segments.foldl pushBehind backwards' := by
  induction segments generalizing backwards backwards' with
  | nil =>
    obtain ⟨s, hs, -⟩ := h
    cases hs
  | cons s segments ih =>
    rw [List.foldl_cons, List.foldl_cons]
    by_cases hs : s.head? = some '/'
    · rw [pushBehind, pushBehind, if_pos hs, if_pos hs]
    · obtain ⟨s', hs', hslash⟩ := h
      rcases List.mem_cons.mp hs' with rfl | hs'
      · exact absurd hslash hs
      · exact ih ⟨s', hs', hslash⟩ _ _

/-! ### Extensions -/

/-- A name holds the characters of its stem. -/
theorem mem_of_mem_stem {name : List Char} {c : Char} (h : c ∈ stem name) : c ∈ name := by
  unfold stem at h
  split at h
  · exact h
  · have hmem := List.mem_of_mem_drop (List.mem_reverse.mp h)
    exact List.mem_reverse.mp ((List.dropWhile_sublist _).subset hmem)

/-- A name without dots has no extension. -/
theorem stem_of_not_mem {name : List Char} (h : '.' ∉ name) : stem name = name := by
  have hall : name.reverse.dropWhile (· != '.') = [] := by
    refine List.dropWhile_eq_nil_iff.mpr fun c hc ↦ ?_
    have hne : c ≠ '.' := fun heq ↦ h (heq ▸ List.mem_reverse.mp hc)
    simpa using hne
  rw [stem, hall]
  rfl

/-- A name with the extension of class files is a component. -/
theorem isVacant_stem_extension (name : List Char) :
    isVacant (stem name ++ '.' :: extension) = false := by
  rw [isVacant, Bool.or_eq_false_iff]
  cases stem name <;> simp [extension]

/-- The extension brings no slash into a name. -/
theorem not_mem_stem_extension {name : List Char} (h : '/' ∉ name) :
    '/' ∉ stem name ++ '.' :: extension := by
  intro hmem
  rcases List.mem_append.mp hmem with hmem | hmem
  · exact h (mem_of_mem_stem hmem)
  · exact absurd hmem (by decide)

/-- A list is what comes before its last member that counts, that member and members that do not
count. -/
theorem split_of_dropWhile_reverse {α : Type} {P : α → Bool} {l before : List α} {a : α}
    (h : l.reverse.dropWhile P = a :: before) :
    ∃ skipped, l = before.reverse ++ a :: skipped ∧ P a = false ∧ ∀ b ∈ skipped, P b = true := by
  refine ⟨(l.reverse.takeWhile P).reverse, ?_, ?_, fun b hb ↦ ?_⟩
  · have := congrArg List.reverse (List.takeWhile_append_dropWhile (p := P) (l := l.reverse))
    rw [h] at this
    simpa using this.symm
  · have := List.head_dropWhile_not P (l := l.reverse) (by simp [h])
    simpa [h] using this
  · exact List.all_eq_true.mp List.all_takeWhile b (List.mem_reverse.mp hb)

/-- Joined names are absolute just if the first of them is empty and comes before another one. -/
theorem rootOf_join {before rest : List (List Char)} {name : List Char}
    (hslash : ∀ s ∈ before ++ [name], '/' ∉ s) (hname : name ≠ []) :
    rootOf (join (before ++ name :: rest)) = if before.head? = some [] then [['/']] else [] := by
  have hhead : ∀ (s tail : List Char), s ≠ [] → '/' ∉ s → (s ++ tail).head? ≠ some '/' := by
    intro s tail hne hmem
    obtain ⟨c, s, rfl⟩ := List.exists_cons_of_ne_nil hne
    rintro ⟨rfl⟩
    exact hmem (.head _)
  rw [rootOf]
  cases before with
  | nil =>
    have hfirst : (join ([] ++ name :: rest)).head? ≠ some '/' := by
      have hmem := hslash name (.head _)
      cases rest with
      | nil => simpa [join] using hhead name [] hname hmem
      | cons s rest => exact hhead name _ hname hmem
    rw [if_neg hfirst]
    rfl
  | cons s before =>
    have hjoin : join (s :: before ++ name :: rest) =
        s ++ '/' :: join (before ++ name :: rest) := by
      cases before <;> rfl
    rw [hjoin]
    cases s with
    | nil => rfl
    | cons c s =>
      rw [if_neg (hhead (c :: s) _ (List.cons_ne_nil _ _) (hslash _ (.head _)))]
      rfl

/-- Putting the extension in its place leaves a path without file name as it is and changes the file
name of any other path, which is its last component. -/
theorem withExtension_cases (path : List Char) :
    (components path = rootOf path ∧ withExtension path = path) ∨
      ∃ front last, components path = front ++ [last] ∧
        (last = ['.', '.'] ∧ withExtension path = path ∨
          last ≠ ['.', '.'] ∧
            components (withExtension path) = front ++ [stem last ++ '.' :: extension]) := by
  rw [withExtension]
  split
  · next hnil =>
    have hnames : names path = [] := by
      refine List.filter_eq_nil_iff.mpr fun s hs ↦ ?_
      have := List.dropWhile_eq_nil_iff.mp hnil s (List.mem_reverse.mpr hs)
      simp [this]
    exact .inl ⟨by rw [components, hnames, List.append_nil], rfl⟩
  · next last before hname =>
    obtain ⟨skipped, hsplit, hlast, hskipped⟩ := split_of_dropWhile_reverse hname
    have hnames : names path = before.reverse.filter (!isVacant ·) ++ [last] := by
      have hnone : skipped.filter (!isVacant ·) = [] :=
        List.filter_eq_nil_iff.mpr fun s hs ↦ by simp [hskipped s hs]
      rw [names, hsplit, List.filter_append, List.filter_cons_of_pos (by rw [hlast]; rfl), hnone]
    refine .inr ⟨rootOf path ++ before.reverse.filter (!isVacant ·), last, ?_, ?_⟩
    · rw [components, hnames, List.append_assoc]
    by_cases hup : last = ['.', '.']
    · exact .inl ⟨hup, if_pos hup⟩
    · refine .inr ⟨hup, ?_⟩
      -- What is joined holds no slash, so that splitting the new path gives it back.
      have hslash : ∀ s ∈ before.reverse ++ [last], '/' ∉ s := by
        intro s hs hmem
        have hs : s ∈ segments '/' path := by
          rw [hsplit, List.append_cons]
          exact List.mem_append_left _ hs
        exact (mem_of_mem_segments hs hmem).2 rfl
      have hslash' : ∀ s ∈ before.reverse ++ [stem last ++ '.' :: extension], '/' ∉ s := by
        intro s hs
        rcases List.mem_append.mp hs with hs | hs
        · exact hslash s (List.mem_append_left _ hs)
        · rw [List.mem_singleton.mp hs]
          exact not_mem_stem_extension (hslash last (List.mem_append_right _ (.head _)))
      -- Both paths begin with the same names before the file name, so with the same root.
      have hroot : rootOf (join (before.reverse ++ [stem last ++ '.' :: extension])) =
          rootOf path := by
        have hne : last ≠ [] := by
          rintro rfl
          cases hlast
        have hpath : path = join (before.reverse ++ last :: skipped) := by
          rw [← hsplit, join, segments_eq_splitOn, List.intercalate_splitOn]
        rw [hpath, rootOf_join hslash hne, rootOf_join hslash' (by simp)]
      rw [if_neg hup, components, hroot, names_join (by simp) hslash', List.filter_append,
        List.filter_cons_of_pos (by rw [isVacant_stem_extension]; rfl), List.filter_nil,
        List.append_assoc]

/-- Putting the extension in its place adds no component. -/
theorem length_components_withExtension (path : List Char) :
    (components (withExtension path)).length = (components path).length := by
  rcases withExtension_cases path with ⟨-, h⟩ | ⟨front, last, hpath, ⟨-, h⟩ | ⟨-, h⟩⟩
  · rw [h]
  · rw [h]
  · rw [h, hpath, List.length_append, List.length_append]
    rfl

/-! ### Files of class names -/

/-- The file that holds the image of a class, below a root. -/
def file (root name : List Char) : List (List Char) := components (path root name)

/-- A file is in the directory of a root, or in one below it. -/
def IsBelow (root : List Char) (file : List (List Char)) : Prop :=
  components root <+: file ∧ components root ≠ file

instance (root : List Char) (file : List (List Char)) : Decidable (IsBelow root file) :=
  inferInstanceAs (Decidable (_ ∧ _))

/-- What stands between the dots and slashes of a class name. -/
def parts (name : List Char) : List (List Char) := (segments '.' name).flatMap names

/-- No segment of a class name begins with a slash. -/
def IsRelative (name : List Char) : Prop := ∀ s ∈ segments '.' name, s.head? ≠ some '/'

variable {root name name' : List Char}

/-- A part of a name holds no dot. -/
theorem not_mem_of_mem_parts {s : List Char} (h : s ∈ parts name) : '.' ∉ s := by
  intro hdot
  obtain ⟨segment, hsegment, hs⟩ := List.mem_flatMap.mp h
  exact (mem_of_mem_segments hsegment (mem_of_mem_names hs hdot).1).2 rfl

/-- No part of a name is the root. -/
theorem not_mem_rootOf {s path : List Char} (h : s ∈ parts name) : s ∉ rootOf path := by
  obtain ⟨segment, -, hs⟩ := List.mem_flatMap.mp h
  rw [rootOf]
  split
  · intro hroot
    rw [List.mem_singleton.mp hroot] at hs
    exact (mem_of_mem_names hs (.head _)).2 rfl
  · exact List.not_mem_nil

/-- A name goes below the root by its parts. -/
theorem components_extend_of_isRelative (h : IsRelative name) (root : List Char) :
    components (extend root (segments '.' name)) = components root ++ parts name :=
  components_extend h

/-- The last part of a name becomes the name of its file, the parts before it directories. -/
theorem file_of_parts (h : IsRelative name) {front : List (List Char)} {last : List Char}
    (hparts : parts name = front ++ [last]) (root : List Char) :
    file root name = components root ++ front ++ [last ++ '.' :: extension] := by
  have hdot : '.' ∉ last := not_mem_of_mem_parts (hparts ▸ List.mem_append_right _ (.head _))
  have hlast : last ≠ ['.', '.'] := fun heq ↦ hdot (heq ▸ .head _)
  have hpath := components_extend_of_isRelative h root
  rw [hparts, ← List.append_assoc] at hpath
  rw [file, path]
  rcases withExtension_cases (extend root (segments '.' name)) with
    ⟨hnil, -⟩ | ⟨front', last', hsplit, hcases⟩
  · have hroot : last ∈ rootOf (extend root (segments '.' name)) := by
      rw [← hnil, hpath]
      exact List.mem_append_right _ (.head _)
    exact absurd hroot (not_mem_rootOf (hparts ▸ List.mem_append_right _ (.head _)))
  · obtain ⟨rfl, hsingle⟩ := List.append_inj' (hsplit.symm.trans hpath) rfl
    obtain rfl : last' = last := by simpa using hsingle
    obtain ⟨hup, -⟩ | ⟨-, hfile⟩ := hcases
    · exact absurd hup hlast
    · rw [hfile, stem_of_not_mem hdot]

example : file "/r".toList "pkg.sub.Counter".toList =
    ["/".toList, "r".toList, "pkg".toList, "sub".toList, "Counter.tpc".toList] := by
  decide

/-- A name has as many parts as its file has components more than the root. -/
theorem length_file (h : IsRelative name) (root : List Char) :
    (file root name).length = (components root).length + (parts name).length := by
  rw [file, path, length_components_withExtension, components_extend_of_isRelative h,
    List.length_append]

/-- A name goes below the root just if it has a part. -/
theorem isBelow_file_iff (h : IsRelative name) (root : List Char) :
    IsBelow root (file root name) ↔ parts name ≠ [] := by
  constructor
  · rintro ⟨hfront, hne⟩ hnil
    refine hne (hfront.eq_of_length ?_)
    rw [length_file h, hnil, List.length_nil, Nat.add_zero]
  · intro hne
    rw [file_of_parts h (List.dropLast_concat_getLast hne).symm, List.append_assoc]
    refine ⟨List.prefix_append _ _, fun heq ↦ ?_⟩
    have := congrArg List.length heq
    simp at this

/-- Names have the same file just if they have the same parts. -/
theorem file_eq_file_iff (h : IsRelative name) (h' : IsRelative name') (hne : parts name' ≠ [])
    (root : List Char) : file root name = file root name' ↔ parts name = parts name' := by
  have hparts' := (List.dropLast_concat_getLast hne).symm
  constructor
  · intro heq
    have hlength := congrArg List.length heq
    rw [length_file h, length_file h', Nat.add_left_cancel_iff] at hlength
    have hparts := (List.dropLast_concat_getLast (List.length_pos_iff.mp
      (hlength ▸ List.length_pos_iff.mpr hne))).symm
    rw [file_of_parts h hparts, file_of_parts h' hparts', List.append_assoc, List.append_assoc,
      List.append_cancel_left_eq] at heq
    obtain ⟨hfront, hsingle⟩ := List.append_inj' heq rfl
    have hlast := List.append_cancel_right (List.singleton_inj.mp hsingle)
    rw [hfront, hlast] at hparts
    exact hparts.trans hparts'.symm
  · intro heq
    rw [file_of_parts h (heq.trans hparts'), file_of_parts h' hparts']

/-- Where a name that is not relative leads has nothing to do with the root. -/
theorem path_of_not_isRelative (h : ¬IsRelative name) (root root' : List Char) :
    path root name = path root' name := by
  have hslash : ∃ s ∈ segments '.' name, s.head? = some '/' := by
    simpa [IsRelative] using h
  rw [path, path, extend, extend, foldl_pushBehind_of_slash hslash]

example : ¬IsBelow "r".toList (file "r".toList "x./r/k".toList) := by
  decide

/-! ### Names that are looked for -/

/-- A name that is looked for has its segments as its parts. -/
theorem parts_of_isSought (h : isSought name = true) :
    IsRelative name ∧ parts name = segments '.' name := by
  have hsegment : ∀ s ∈ segments '.' name, s ≠ [] ∧ '/' ∉ s := by
    intro s hs
    have := List.all_eq_true.mp h s hs
    simp only [Bool.and_eq_true, Bool.not_eq_true', List.contains_eq_mem, decide_eq_false_iff_not,
      List.isEmpty_eq_false_iff] at this
    exact this.1
  constructor
  · intro s hs hslash
    exact (hsegment s hs).2 (List.mem_of_mem_head? hslash)
  · have hsingle : ∀ s ∈ segments '.' name, names s = [s] := by
      intro s hs
      obtain ⟨hne, hslash⟩ := hsegment s hs
      have hdot : s ≠ ['.'] := by
        rintro rfl
        exact (mem_of_mem_segments hs (.head _)).2 rfl
      have hfull : isVacant s = false := by simp [isVacant, hne, hdot]
      rw [names, segments_eq_splitOn, List.splitOn_eq_singleton hslash,
        List.filter_cons_of_pos (by rw [hfull]; rfl), List.filter_nil]
    rw [parts, List.flatMap_def, List.map_congr_left hsingle, ← List.flatMap_def,
      List.flatMap_singleton']

/-- A name is told by its segments. -/
theorem eq_of_segments_eq (h : segments '.' name = segments '.' name') : name = name' := by
  have hjoined := congrArg ['.'].intercalate h
  rwa [segments_eq_splitOn, segments_eq_splitOn, List.intercalate_splitOn,
    List.intercalate_splitOn] at hjoined

/-- A name that is looked for is kept below the root. -/
theorem isBelow_file_of_isSought (h : isSought name = true) (root : List Char) :
    IsBelow root (file root name) := by
  obtain ⟨hrelative, hparts⟩ := parts_of_isSought h
  refine (isBelow_file_iff hrelative root).mpr ?_
  rw [hparts, segments_eq_splitOn]
  exact List.splitOn_ne_nil _ _

/-- The file of a name that is looked for is that of every name with its segments as parts. -/
theorem file_eq_file_iff_of_isSought (h : IsRelative name) (h' : isSought name' = true)
    (root : List Char) : file root name = file root name' ↔ parts name = segments '.' name' := by
  obtain ⟨hrelative', hparts'⟩ := parts_of_isSought h'
  have hne := (isBelow_file_iff hrelative' root).mp (isBelow_file_of_isSought h' root)
  rw [file_eq_file_iff h hrelative' hne, hparts']

/-- Names that are looked for have files of their own. -/
theorem file_inj_of_isSought (h : isSought name = true) (h' : isSought name' = true)
    (root : List Char) : file root name = file root name' ↔ name = name' := by
  obtain ⟨hrelative, hparts⟩ := parts_of_isSought h
  rw [file_eq_file_iff_of_isSought hrelative h', hparts]
  exact ⟨eq_of_segments_eq, fun heq ↦ heq ▸ rfl⟩

end Hotswap.ImagePath
