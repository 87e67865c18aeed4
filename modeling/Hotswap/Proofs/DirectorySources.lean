import Hotswap.Pool.Source
import Hotswap.Proofs.ImagePaths

/-!
# Directories of class images

A directory keeps the image of a class in the file of its name. It is a map from names to images,
and stays below its root, as long as every class that is stored has a name that is looked for;
nothing checks this when a class is stored.
-/

namespace Hotswap

open ImagePath DescriptorScan

namespace FileTree

/-- A class name has a file: nothing is wrong with the path, and no component is too long. -/
def Fits (root name : List Char) : Prop :=
  pathFault? (path root name) = none ∧ (file root name).any isLongName = false

instance (root name : List Char) : Decidable (Fits root name) := inferInstanceAs (Decidable (_ ∧ _))

variable {t : FileTree} {root name : List Char}

theorem length_beforeLongName_lt_iff {components : List (List Char)} :
    (beforeLongName components).length < components.length ↔
      components.any isLongName = true := by
  induction components with
  | nil => simp [beforeLongName]
  | cons s components ih =>
    rw [beforeLongName] at ih ⊢
    cases hs : isLongName s <;> simp [hs, ih]

/-- Making a directory adds no other directory to the list. -/
theorem mem_directories_makeDirectory {directory d : List (List Char)}
    (h : d ∈ (t.makeDirectory directory).directories) : d ∈ t.directories ∨ d = directory := by
  rw [makeDirectory] at h
  split at h
  · exact .inl h
  · exact (List.mem_cons.mp h).symm

@[simp] theorem files_makeDirectory (directory : List (List Char)) :
    (t.makeDirectory directory).files = t.files := by
  rw [makeDirectory]
  split <;> rfl

/-- Whatever comes of it, only directories on the way to the file are made, and no file. -/
theorem makeParents_frame (t : FileTree) (path : List Char) :
    (t.makeParents path).2.files = t.files ∧
      ∀ d ∈ (t.makeParents path).2.directories,
        d ∈ t.directories ∨ d <+: (components path).dropLast := by
  rw [makeParents]
  split
  · exact ⟨rfl, fun _ ↦ .inl⟩
  · refine ⟨files_makeDirectory _, fun d hd ↦ ?_⟩
    rcases mem_directories_makeDirectory hd with hd | rfl
    · exact .inl hd
    · exact .inr (List.takeWhile_prefix _)

/-- A file is written only if its name fits, and then nothing else changes. -/
theorem write_path_cases (t : FileTree) (root name : List Char) (content : List UInt8) :
    (Fits root name ∧ t.write (path root name) content =
        (.ok (), { t with files := t.files.put (file root name) content })) ∨
      ∃ fault, t.write (path root name) content = (.error fault, t) := by
  rw [write]
  cases hfault : pathFault? (path root name) with
  | some fault => exact .inr ⟨fault, rfl⟩
  | none =>
    cases hlong : (file root name).any isLongName with
    | true => exact .inr ⟨.nameTooLong, if_pos hlong⟩
    | false => exact .inl ⟨⟨hfault, hlong⟩, if_neg (Bool.eq_false_iff.mp hlong)⟩

/-- A file whose name fits is read as it is in the tree. -/
theorem read_path_of_fits (h : Fits root name) (t : FileTree) :
    t.read (path root name) = .ok (t.files.get? (file root name)) := by
  have hlength : ¬(beforeLongName (components (path root name))).length <
      (components (path root name)).length := by
    rw [length_beforeLongName_lt_iff]
    exact Bool.eq_false_iff.mp h.2
  rw [read, h.1]
  exact if_neg hlength

/-- No image is read from a file whose name does not fit. -/
theorem read_path_ne_of_not_fits (h : ¬Fits root name) (t : FileTree) (image : List UInt8) :
    t.read (path root name) ≠ .ok (some image) := by
  rw [read]
  cases hfault : pathFault? (path root name) with
  | some fault =>
    intro hread
    cases hread
  | none =>
    have hlong : (components (path root name)).any isLongName = true :=
      Bool.of_not_eq_false fun hshort ↦ h ⟨hfault, hshort⟩
    dsimp only
    rw [if_pos (length_beforeLongName_lt_iff.mpr hlong)]
    intro hread
    split at hread <;> cases hread

end FileTree

open FileTree

/-- The image of the last of the classes that a test picks; the last class that was stored comes
first. -/
def lastImage (test : ClassDecl → Bool) (cs : List ClassDecl) : Option (List UInt8) :=
  (cs.find? test).bind (·.encode.toOption)

theorem lastImage_cons {c : ClassDecl} {image : List UInt8} (himage : c.encode = .ok image)
    (test : ClassDecl → Bool) (cs : List ClassDecl) :
    lastImage test (c :: cs) = if test c then some image else lastImage test cs := by
  rw [lastImage, List.find?_cons]
  cases test c with
  | true => exact congrArg Except.toOption himage
  | false => rfl

/-- Only what a test says of the stored classes matters. -/
theorem lastImage_congr {test test' : ClassDecl → Bool} {cs : List ClassDecl}
    (h : ∀ c ∈ cs, test c = test' c) : lastImage test cs = lastImage test' cs := by
  rw [lastImage, lastImage, ← List.head?_filter, ← List.head?_filter, List.filter_congr h]

/-- Classes that have images give one just if one of them is picked. -/
theorem lastImage_eq_none_iff {test : ClassDecl → Bool} {cs : List ClassDecl}
    (h : ∀ c ∈ cs, ∃ image, c.encode = .ok image) :
    lastImage test cs = none ↔ ∀ c ∈ cs, test c = false := by
  simp only [lastImage, ← Bool.not_eq_true, ← List.find?_eq_none]
  cases hfound : cs.find? test with
  | none => simp
  | some c =>
    obtain ⟨image, himage⟩ := h c (List.mem_of_find?_eq_some hfound)
    simp [himage, Except.toOption]

namespace Source

variable {root : List Char} {t : FileTree} {cs : List ClassDecl} {s : Source}

/-! ### One store -/

/-- What storing a class in a directory comes to: directories on the way to the file of its name
are made, and unless something fails the image is put into that file. -/
theorem store_cases (root : List Char) (t : FileTree) (c : ClassDecl) :
    ∃ t' : FileTree, ((directory root t).store c).2 = directory root t' ∧
      (∀ d ∈ t'.directories,
        d ∈ t.directories ∨ d <+: (file root c.name.toList).dropLast) ∧
      ((∃ e, ((directory root t).store c).1 = .error e) ∧ t'.files = t.files ∨
        ((directory root t).store c).1 = .ok () ∧ Fits root c.name.toList ∧
          ∃ image, c.encode = .ok image ∧
            t'.files = t.files.put (file root c.name.toList) image) := by
  obtain ⟨hfiles, hdirectories⟩ := makeParents_frame t (path root c.name.toList)
  rw [store]
  rcases hmade : t.makeParents (path root c.name.toList) with ⟨fault | _, made⟩
  · rw [hmade] at hfiles hdirectories
    exact ⟨made, rfl, hdirectories, .inl ⟨⟨.file fault, rfl⟩, hfiles⟩⟩
  · rw [hmade] at hfiles hdirectories
    dsimp only at hfiles hdirectories ⊢
    cases hencode : c.encode with
    | error e => exact ⟨made, rfl, hdirectories, .inl ⟨⟨e, rfl⟩, hfiles⟩⟩
    | ok image =>
      dsimp only
      rcases write_path_cases made root c.name.toList image with
        ⟨hfits, hwritten⟩ | ⟨fault, hwritten⟩
      · rw [hwritten]
        exact ⟨_, rfl, hdirectories, .inr ⟨rfl, hfits, image, rfl, hfiles ▸ rfl⟩⟩
      · rw [hwritten]
        exact ⟨made, rfl, hdirectories, .inl ⟨⟨.file fault, rfl⟩, hfiles⟩⟩

/-! ### Finding -/

theorem find_of_not_isSought {name : String} (h : isSought name.toList = false) :
    (directory root t).find name = .ok none := by
  rw [find, h]
  rfl

theorem find_of_isSought {name : String} (h : isSought name.toList = true)
    (hfits : Fits root name.toList) :
    (directory root t).find name = .ok (t.files.get? (file root name.toList)) := by
  rw [find, if_pos h, read_path_of_fits hfits]
  rfl

theorem find_ne_of_not_fits {name : String} (h : ¬Fits root name.toList) (image : List UInt8) :
    (directory root t).find name ≠ .ok (some image) := by
  have hread := read_path_ne_of_not_fits h t image
  rw [find]
  split
  · cases hanswer : t.read (path root name.toList) with
    | error fault =>
      intro heq
      cases heq
    | ok found =>
      rw [hanswer] at hread
      intro heq
      exact hread (congrArg Except.ok (Except.ok.inj heq))
  · intro heq
    cases heq

/-! ### Histories -/

/-- Sources that come of an empty directory by storing classes, of which the last one comes first;
every store succeeds. -/
inductive Stored (root : List Char) : List ClassDecl → Source → Prop
  | new : Stored root [] (newDirectory root)
  | store {cs : List ClassDecl} {s : Source} (c : ClassDecl) :
    Stored root cs s → (s.store c).1 = .ok () → Stored root (c :: cs) (s.store c).2

/-- What a tree holds once classes were stored in it. -/
structure Holds (root : List Char) (cs : List ClassDecl) (t : FileTree) : Prop where
  encodable : ∀ c ∈ cs, ∃ image, c.encode = .ok image
  fits : ∀ c ∈ cs, Fits root c.name.toList
  files : ∀ f, t.files.get? f = lastImage (file root ·.name.toList == f) cs
  directories : ∀ d ∈ t.directories,
    d = components root ∨ ∃ c ∈ cs, d <+: (file root c.name.toList).dropLast

/-- A store that succeeds adds its class. -/
theorem Holds.store {c : ClassDecl} (h : Holds root cs t)
    (hstore : ((directory root t).store c).1 = .ok ()) :
    ∃ t', ((directory root t).store c).2 = directory root t' ∧ Holds root (c :: cs) t' := by
  obtain ⟨t', ht', hdirectories, ⟨⟨e, herror⟩, -⟩ | ⟨-, hfits, image, himage, hfiles⟩⟩ :=
    store_cases root t c
  · rw [hstore] at herror
    cases herror
  · refine ⟨t', ht', ⟨?_, ?_, fun f ↦ ?_, fun d hd ↦ ?_⟩⟩
    · exact List.forall_mem_cons.mpr ⟨⟨image, himage⟩, h.encodable⟩
    · exact List.forall_mem_cons.mpr ⟨hfits, h.fits⟩
    · rw [hfiles, Table.get?_put, h.files, lastImage_cons himage]
      simp only [beq_iff_eq]
    · rcases hdirectories d hd with hd | hd
      · rcases h.directories d hd with hd | ⟨c', hc', hd⟩
        · exact .inl hd
        · exact .inr ⟨c', .tail _ hc', hd⟩
      · exact .inr ⟨c, .head _, hd⟩

/-- Every history of stores leaves a directory that holds its classes. -/
theorem Stored.holds (h : Stored root cs s) : ∃ t, s = directory root t ∧ Holds root cs t := by
  induction h with
  | new =>
    refine ⟨_, rfl, ?_, ?_, fun f ↦ rfl, fun d hd ↦ .inl (List.mem_singleton.mp hd)⟩
    · exact List.forall_mem_nil _
    · exact List.forall_mem_nil _
  | store c _ hstore ih =>
    obtain ⟨t, rfl, hholds⟩ := ih
    exact hholds.store hstore

/-! ### Maps -/

/-- Every name that fits leads to the image of the last class of that name. -/
def IsMap (root : List Char) (cs : List ClassDecl) (s : Source) : Prop :=
  ∀ name : String, Fits root name.toList → s.find name = .ok (lastImage (·.name == name) cs)

/-- A directory is a map just as long as its classes have names that are looked for. -/
theorem Holds.isMap_iff (h : Holds root cs t) :
    IsMap root cs (directory root t) ↔ ∀ c ∈ cs, isSought c.name.toList = true := by
  constructor
  · intro hmap c hc
    by_contra hsought
    have hfound := hmap c.name (h.fits c hc)
    rw [find_of_not_isSought (Bool.eq_false_iff.mpr hsought)] at hfound
    have hnone := (lastImage_eq_none_iff h.encodable).mp (Except.ok.inj hfound).symm c hc
    exact absurd rfl (beq_eq_false_iff_ne.mp hnone)
  · intro hsought name hfits
    cases hname : isSought name.toList with
    | false =>
      rw [find_of_not_isSought hname, (lastImage_eq_none_iff h.encodable).mpr]
      intro c hc
      refine beq_eq_false_iff_ne.mpr fun heq ↦ ?_
      rw [← heq, hsought c hc] at hname
      cases hname
    | true =>
      rw [find_of_isSought hname hfits, h.files]
      refine congrArg _ (lastImage_congr fun c hc ↦ ?_)
      rw [Bool.eq_iff_iff, beq_iff_eq, beq_iff_eq, file_inj_of_isSought (hsought c hc) hname,
        String.toList_inj]

/-! ### Confinement -/

/-- No file stands outside the root, and no directory but those on the way to it. -/
inductive IsConfined : Source → Prop
  | ofMemory (images : Table String (List UInt8)) : IsConfined (.memory images)
  | ofDirectory {root : List Char} {t : FileTree} :
    (∀ f ∈ t.files.keys, IsBelow root f) →
      (∀ d ∈ t.directories, components root <+: d ∨ d <+: components root) →
        IsConfined (.directory root t)

/-- What is on the way to a file below the root is below the root or on the way to it. -/
theorem comparable_of_isBelow {f d : List (List Char)} (h : IsBelow root f)
    (hd : d <+: f.dropLast) : components root <+: d ∨ d <+: components root :=
  List.prefix_or_prefix_of_prefix h.1 (hd.trans (List.dropLast_prefix f))

/-- The files of a directory are those of its classes. -/
theorem Holds.mem_keys_iff (h : Holds root cs t) {f : List (List Char)} :
    f ∈ t.files.keys ↔ ∃ c ∈ cs, file root c.name.toList = f := by
  rw [← Table.contains_iff_mem_keys, Table.contains, h.files, Option.isSome_iff_ne_none, Ne,
    lastImage_eq_none_iff h.encodable]
  simp

/-- A directory is confined just if the files of its classes are below the root. -/
theorem Holds.isConfined_iff (h : Holds root cs t) :
    (directory root t).IsConfined ↔ ∀ c ∈ cs, IsBelow root (file root c.name.toList) := by
  constructor
  · intro hconfined c hc
    cases hconfined with | ofDirectory hfiles _ =>
    exact hfiles _ (h.mem_keys_iff.mpr ⟨c, hc, rfl⟩)
  · intro hbelow
    refine .ofDirectory (fun f hf ↦ ?_) fun d hd ↦ ?_
    · obtain ⟨c, hc, rfl⟩ := h.mem_keys_iff.mp hf
      exact hbelow c hc
    · rcases h.directories d hd with rfl | ⟨c, hc, hd⟩
      · exact .inl (List.prefix_refl _)
      · exact comparable_of_isBelow (hbelow c hc) hd

/-- Storing a class whose file is below the root, whatever comes of it, keeps a directory
confined. -/
theorem IsConfined.store {c : ClassDecl} (h : (directory root t).IsConfined)
    (hbelow : IsBelow root (file root c.name.toList)) :
    ((directory root t).store c).2.IsConfined := by
  obtain ⟨t', ht', hdirectories, hfiles⟩ := store_cases root t c
  cases h with | ofDirectory hbelow' hcomparable =>
  rw [ht']
  refine .ofDirectory (fun f hf ↦ ?_) fun d hd ↦ ?_
  · rcases hfiles with ⟨-, hfiles⟩ | ⟨-, -, image, -, hfiles⟩
    · exact hbelow' f (hfiles ▸ hf)
    · rw [hfiles, Table.mem_keys_put] at hf
      rcases hf with rfl | hf
      · exact hbelow
      · exact hbelow' f hf
  · rcases hdirectories d hd with hd | hd
    · exact hcomparable d hd
    · exact comparable_of_isBelow hbelow hd

/-! ### What a directory is as a map -/

/-- A directory to which classes were stored is a map just as long as their names are looked for,
and is confined just as long as their files are below the root. Otherwise a name that is looked for
leads to the class that was stored last in its file, and one that is not looked for to no class. The
files are those of the parts of names, wherever no segment begins with a slash; where one does, the
root does not matter. -/
theorem Stored.map_and_confinement (h : Stored root cs s) :
    (IsMap root cs s ↔ ∀ c ∈ cs, isSought c.name.toList = true) ∧
    (s.IsConfined ↔ ∀ c ∈ cs, IsBelow root (file root c.name.toList)) ∧
    (∀ c : ClassDecl, IsBelow root (file root c.name.toList) → s.IsConfined →
      (s.store c).2.IsConfined) ∧
    (∀ name : String, isSought name.toList = false → s.find name = .ok none) ∧
    (∀ name : String, isSought name.toList = true → Fits root name.toList →
      s.find name = .ok (lastImage (file root ·.name.toList == file root name.toList) cs)) ∧
    (∀ name : String, ¬Fits root name.toList →
      (∀ c ∈ cs, c.name ≠ name) ∧ ∀ image, s.find name ≠ .ok (some image)) ∧
    (∀ name : List Char, isSought name = true → IsBelow root (file root name)) ∧
    (∀ name : List Char, IsRelative name →
      (IsBelow root (file root name) ↔ parts name ≠ []) ∧
        ∀ name' : List Char, isSought name' = true →
          (file root name = file root name' ↔ parts name = segments '.' name')) ∧
    ∀ name root' : List Char, ¬IsRelative name → path root name = path root' name := by
  obtain ⟨t, rfl, hholds⟩ := h.holds
  refine ⟨hholds.isMap_iff, hholds.isConfined_iff, fun c hbelow hconfined ↦ hconfined.store hbelow,
    fun name ↦ find_of_not_isSought, fun name hsought hfits ↦ ?_, fun name hfits ↦ ⟨?_, ?_⟩,
    fun name hsought ↦ isBelow_file_of_isSought hsought root,
    fun name hrelative ↦ ⟨isBelow_file_iff hrelative root, fun name' hsought ↦ ?_⟩,
    fun name root' hrelative ↦ path_of_not_isRelative hrelative root root'⟩
  · rw [find_of_isSought hsought hfits, hholds.files]
  · rintro c hc rfl
    exact hfits (hholds.fits c hc)
  · exact find_ne_of_not_fits hfits
  · exact file_eq_file_iff_of_isSought hrelative hsought root

/-- A class without members. -/
def bareClass (flags : UInt16) (name : String) : ClassDecl := ⟨flags, name, none, [], []⟩

/-- The first class is overwritten by the second, whose name has a slash, and the last, whose name
is empty, leaves the root. -/
theorem slashed_map_and_confinement :
    ∃ s, Stored "/r".toList [bareClass Flag.visible "", bareClass Flag.final "k/P",
        bareClass Flag.visible "k.P"] s ∧
      s.find "k.P" = .ok (bareClass Flag.final "k/P").encode.toOption ∧
      s.find "k/P" = .ok none ∧ ¬s.IsConfined := by
  have hnew : Stored "/r".toList [] (newDirectory "/r".toList) := .new
  have hfirst := hnew.store (bareClass Flag.visible "k.P") rfl
  have hsecond := hfirst.store (bareClass Flag.final "k/P") rfl
  have hthird := hsecond.store (bareClass Flag.visible "") rfl
  obtain ⟨-, hconfined, -, hunsought, hsought, -⟩ := hthird.map_and_confinement
  refine ⟨_, hthird, ?_, hunsought "k/P" rfl, fun h ↦ ?_⟩
  · rw [hsought "k.P" rfl (by decide)]
    rfl
  · exact absurd (hconfined.mp h _ (.head _)) (by decide)

end Source

end Hotswap
