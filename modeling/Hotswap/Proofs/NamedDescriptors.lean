import Hotswap.Proofs.ClassImage
import Hotswap.Proofs.MethodResolution
import Hotswap.Proofs.SourceSpellings

/-!
# Describing types that are named in source

A type that is named in source has a name that a descriptor can hold, but it may have any number of
dimensions. So it can be described, and stand in a class image, just if it has no more dimensions
than a descriptor may have; the descriptor of any other one is refused for that limit.
-/

namespace Hotswap

/-- A class name in source is one that a descriptor can hold. -/
theorem IsSourceClassName.isClassName {name : String} (h : IsSourceClassName name) :
    IsClassName name := by
  refine ⟨h.segments, fun c hc ↦ ?_⟩
  have hsub : ['/', ';', '[', '(', ')'] ⊆ [';', '[', ']', '/', '(', ')'] := by decide
  exact fun hmark ↦ (h.chars c hc).2 (hsub hmark)

namespace Ty

variable {t : Ty}

/-- A type that is named in source can be described if it has few enough dimensions. -/
theorem Nameable.describable_iff (h : t.Nameable) : t.Describable ↔ t.dimensions ≤ 255 :=
  ⟨fun hdescribable ↦ hdescribable.dimensions,
    fun hdims ↦ ⟨hdims, h.bottom, fun name hname ↦ (h.className name hname).isClassName⟩⟩

/-- Each dimension counts, from however many have been counted, whatever the type at the bottom. -/
theorem fieldTypeFrom_of_tall (input : String) {depth : Nat} (rest : List Char)
    (hdepth : depth ≤ 255) (h : 255 < depth + t.dimensions) :
    ∃ s, DescriptorScan.fieldTypeFrom input depth (t.descriptorChars ++ rest) =
      (.error (.recursionLimit 255), s) := by
  induction t generalizing depth with
  | array e ih =>
    rw [descriptorChars, List.cons_append, DescriptorScan.fieldTypeFrom]
    by_cases hfull : maxDimensions < depth + 1
    · rw [if_pos hfull]
      exact ⟨_, rfl⟩
    · rw [dimensions] at h
      obtain ⟨s, hs⟩ := ih (Nat.le_of_not_lt hfull) (by omega)
      rw [if_neg hfull, hs]
      exact ⟨_, rfl⟩
  | void | prim | cls =>
    exact absurd h (by simpa [dimensions] using hdepth)

/-- The descriptor of a type with too many dimensions is refused for their number. -/
theorem ofDescriptor_of_tall (h : 255 < t.dimensions) :
    ofDescriptor t.descriptor = .error (.recursionLimit 255) := by
  have htall : 255 < 0 + t.dimensions := by rwa [Nat.zero_add]
  obtain ⟨s, hs⟩ := fieldTypeFrom_of_tall t.descriptor [] (Nat.zero_le _) htall
  rw [List.append_nil] at hs
  simp only [ofDescriptor, DescriptorScan.start, DescriptorScan.fieldType, descriptor,
    String.toList_ofList] at hs ⊢
  rw [hs]

theorem dimensions_arrays (t : Ty) (n : Nat) : (t.arrays n).dimensions = t.dimensions + n := by
  induction n with
  | zero => rfl
  | succ n ih => rw [arrays, dimensions, ih, Nat.add_assoc]

/-- Arrays of a type that can be named can be named. -/
theorem Nameable.arrays (h : t.Nameable) (n : Nat) : (t.arrays n).Nameable := by
  induction n with
  | zero => exact h
  | succ n ih => exact ⟨ih.bottom, ih.className⟩

end Ty

/-- A method with other parameters. -/
def MethodDecl.withParams (m : MethodDecl) (params : List Ty) : MethodDecl :=
  { m with type := { m.type with params } }

/-- A class with one method more. -/
def ClassDecl.declaring (c : ClassDecl) (m : MethodDecl) : ClassDecl :=
  { c with methods := c.methods ++ [m] }

/-- With parameters that are named in source the type of a method can be described if each of them
has few enough dimensions. -/
theorem MethodDecl.WellFormed.describable_withParams_iff {m : MethodDecl} {types : List Ty}
    (hm : m.WellFormed) (htypes : ∀ t ∈ types, t.Nameable) :
    (m.withParams types).type.Describable ↔ ∀ t ∈ types, t.dimensions ≤ 255 :=
  ⟨fun h t ht ↦ (h.params t ht).dimensions,
    fun h ↦ ⟨fun t ht ↦ (htypes t ht).describable_iff.mpr (h t ht), hm.type.result⟩⟩

/-- A well-formed class that declares such a method as well is well-formed under the same
condition. -/
theorem ClassDecl.WellFormed.declaring_withParams_iff {c : ClassDecl} {m : MethodDecl}
    {types : List Ty} (hc : c.WellFormed) (hm : m.WellFormed) (htypes : ∀ t ∈ types, t.Nameable) :
    (c.declaring (m.withParams types)).WellFormed ↔ ∀ t ∈ types, t.dimensions ≤ 255 := by
  rw [← hm.describable_withParams_iff htypes]
  constructor
  · intro h
    exact (h.methods _ (List.mem_append_right _ (.head _))).type
  · intro h
    refine ⟨hc.flags, hc.fields, fun m' hmem ↦ ?_⟩
    rcases List.mem_append.mp hmem with hmem | hmem
    · exact hc.methods m' hmem
    · rw [List.mem_singleton.mp hmem]
      exact ⟨hm.flags, h, hm.code⟩

/-- The types to which names are resolved can be named. -/
theorem Pool.nameable_of_resolveNames {lib : Library} {p : Pool} {names : List String}
    {types : List Ty} (h : (p.resolveNames lib names).1 = .ok types) :
    ∀ t ∈ types, t.Nameable := by
  have hread := (resolveAll_eq_ok.mp h).1
  clear h
  induction hread with
  | nil => exact List.forall_mem_nil _
  | cons hname _ ih => exact List.forall_mem_cons.mpr ⟨(Ty.ofSourceName_eq_ok.mp hname).1, ih⟩

/-- Types that are named in source are read from their descriptors if they have no more dimensions
than a descriptor may have, and their descriptors are refused for that limit if not. So parameters
that are resolved by their names can be given by a descriptor as well, and a class that declares a
method of them is read back from its image, exactly when all of them keep to the limit. -/
theorem named_types_described_iff :
    (∀ (s : String) (t : Ty), Ty.ofSourceName s = .ok t →
      (Ty.ofDescriptor t.descriptor = .ok t ↔ t.dimensions ≤ 255) ∧
      (255 < t.dimensions → Ty.ofDescriptor t.descriptor = .error (.recursionLimit 255))) ∧
    (∀ (lib : Library) (p : Pool) (names : List String) (types : List Ty),
      (p.resolveNames lib names).1 = .ok types → ∀ m : MethodDecl, m.WellFormed →
        (MethodTy.ofDescriptor (m.withParams types).type.descriptor =
          .ok (m.withParams types).type ↔ ∀ t ∈ types, t.dimensions ≤ 255) ∧
        ∀ (c : ClassDecl) (image : List UInt8), c.WellFormed →
          (c.declaring (m.withParams types)).encode = .ok image →
            (ClassDecl.decode image = .ok (c.declaring (m.withParams types)) ↔
              ∀ t ∈ types, t.dimensions ≤ 255)) := by
  refine ⟨fun s t h ↦ ⟨?_, Ty.ofDescriptor_of_tall⟩, fun lib p names types h m hm ↦ ⟨?_, ?_⟩⟩
  · have hname := (Ty.ofSourceName_eq_ok.mp h).1
    rw [Ty.ofDescriptor_eq_ok, hname.describable_iff]
    exact and_iff_left rfl
  · rw [MethodTy.ofDescriptor_eq_ok,
      hm.describable_withParams_iff (Pool.nameable_of_resolveNames h)]
    exact and_iff_left rfl
  · intro c image hc hencode
    rw [← hc.declaring_withParams_iff hm (Pool.nameable_of_resolveNames h)]
    exact ⟨ClassDecl.wellFormed_of_decode, fun hformed ↦ ClassDecl.decode_of_encode hformed hencode⟩

/-- Names of a class and of an array, in a pool that has the class, describe the parameters of a
method that is read back with its class. -/
theorem overloaded_named_types_described :
    let types : List Ty := [.cls "k.P", .array (.prim .int)]
    let m := MethodDecl.withParams ⟨Flag.abstract, "add", ⟨[], .void⟩, none⟩ types
    let c : ClassDecl := ⟨Flag.visible, "k.Q", none, [], []⟩
    Ty.ofSourceName "int[]" = .ok (.array (.prim .int)) ∧
    Ty.ofDescriptor "[I" = .ok (.array (.prim .int)) ∧
    (Patch.havingOverloaded.resolveNames ⟨#[]⟩ ["k.P", " int [] "]).1 = .ok types ∧
    MethodTy.ofDescriptor "(Lk/P;[I)V" = .ok m.type ∧
    ∃ image, (c.declaring m).encode = .ok image ∧ ClassDecl.decode image = .ok (c.declaring m) := by
  intro types m c
  have hint : Ty.ofSourceName "int[]" = .ok (.array (.prim .int)) := by cbv
  have htypes : (Patch.havingOverloaded.resolveNames ⟨#[]⟩ ["k.P", " int [] "]).1 = .ok types := by
    cbv
  have hm : MethodDecl.WellFormed ⟨Flag.abstract, "add", ⟨[], .void⟩, none⟩ :=
    ⟨by decide, ⟨List.forall_mem_nil _, .inl rfl⟩, fun _ h ↦ by cases h⟩
  have hc : c.WellFormed := ⟨by decide, List.forall_mem_nil _, List.forall_mem_nil _⟩
  have hdims : ∀ t ∈ types, t.dimensions ≤ 255 := by decide
  obtain ⟨hone, hall⟩ := named_types_described_iff
  obtain ⟨hdescriptor, himage⟩ := hall ⟨#[]⟩ Patch.havingOverloaded _ types htypes _ hm
  have hencode : ∃ image, (c.declaring m).encode = .ok image := ⟨_, by cbv⟩
  obtain ⟨image, hencode⟩ := hencode
  exact ⟨hint, (hone _ _ hint).1.mpr (by decide), htypes, hdescriptor.mpr hdims, image, hencode,
    (himage c image hc hencode).mpr hdims⟩

/-- Numbers in one dimension more than a descriptor may have. -/
def tallest : Ty := (Ty.prim .int).arrays 256

/-- Not every type that is named in source is read from its descriptor: arrays of 256 dimensions can
be named. -/
theorem not_forall_named_described : ¬∀ (s : String) (t : Ty), Ty.ofSourceName s = .ok t →
    Ty.ofDescriptor t.descriptor = .ok t := by
  intro h
  have hname : tallest.Nameable :=
    Ty.Nameable.arrays ⟨Ty.noConfusion, fun _ hclass ↦ by cases hclass⟩ 256
  have htall : 255 < tallest.dimensions := by
    rw [tallest, Ty.dimensions_arrays]
    decide
  have hread := h tallest.sourceName tallest (Ty.ofSourceName_sourceName hname)
  rw [Ty.ofDescriptor_of_tall htall] at hread
  cases hread

end Hotswap
