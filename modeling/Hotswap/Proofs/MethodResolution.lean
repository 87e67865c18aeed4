import Hotswap.Proofs.Keeping
import Hotswap.Proofs.SourceNames
import Mathlib.Data.List.Forall2

/-!
# Which method a patch is for

A patch names a method and describes its parameters by type names, by reflected types or by a
descriptor. A description by types fits the methods of the name that have exactly these parameters,
and there must be one such method only, since the result is not described. A descriptor tells the
result as well. The descriptions of one method agree, and looking for it leaves the type and all
that the pool has as they are.
-/

namespace Hotswap

/-! ### Declared methods -/

namespace Editable

variable {t : Editable} {name : String} {params : List Ty} {id : MethodId}

/-- The method at a position has a name and exactly these parameters. -/
def Fits (t : Editable) (name : String) (params : List Ty) (id : MethodId) : Prop :=
  ∃ m, t.method? id = some m ∧ m.name = name ∧ m.type.params = params

/-- The declared methods with a name and exactly these parameters, in their order. -/
def overloads (t : Editable) (name : String) (params : List Ty) : List MethodDecl :=
  t.decl.methods.filter fun m ↦ m.name == name && m.type.params == params

/-- The overloads with their positions. -/
private def numbered (t : Editable) (name : String) (params : List Ty) :
    List (MethodDecl × Nat) :=
  t.decl.methods.zipIdx.filter fun (m, _) ↦ m.name == name && m.type.params == params

private theorem fits_iff :
    t.Fits name params id ↔ id.index ∈ (t.numbered name params).map (·.2) := by
  simp only [Fits, numbered, List.mem_map, List.mem_filter, Prod.exists,
    List.mem_zipIdx_iff_getElem?, Bool.and_eq_true, beq_iff_eq, method?]
  constructor
  · rintro ⟨m, hm, hname, hparams⟩
    exact ⟨m, id.index, ⟨hm, hname, hparams⟩, rfl⟩
  · rintro ⟨m, i, ⟨hm, hname, hparams⟩, rfl⟩
    exact ⟨m, hm, hname, hparams⟩

private theorem nodup_numbered (t : Editable) (name : String) (params : List Ty) :
    ((t.numbered name params).map (·.2)).Nodup := by
  have hall : (t.decl.methods.zipIdx.map Prod.snd).Nodup := by
    rw [List.zipIdx_map_snd]
    exact List.nodup_range'
  exact hall.sublist (List.filter_sublist.map _)

private theorem map_fst_numbered (t : Editable) (name : String) (params : List Ty) :
    (t.numbered name params).map (·.1) = t.overloads name params := by
  rw [overloads, ← List.zipIdx_map_fst 0 t.decl.methods, List.filter_map]
  rfl

private theorem declared_eq (t : Editable) (name : String) (params : List Ty) :
    t.declared name params = match t.numbered name params with
      | [(_, index)] => .ok ⟨index⟩
      | [] => .error (.noSuchMethod t.decl.name name (sourceList params))
      | _ => .error (.ambiguousMethod t.decl.name name (sourceList params)
          ((t.overloads name params).map (·.type.descriptor))) := by
  have hcandidates : (t.overloads name params).map (·.type.descriptor) =
      (t.numbered name params).map fun (m, _) ↦ m.type.descriptor := by
    rw [← map_fst_numbered, List.map_map]
    rfl
  rw [hcandidates]
  rfl

/-- A method is found if it is the only one of its name with its parameters. -/
theorem declared_eq_ok : t.declared name params = .ok id ↔
    t.Fits name params id ∧ ∀ other, t.Fits name params other → other = id := by
  have hnodup := t.nodup_numbered name params
  simp only [fits_iff, declared_eq]
  generalize t.numbered name params = found at hnodup
  rcases found with _ | ⟨⟨m, i⟩, _ | ⟨⟨n, j⟩, rest⟩⟩
  · simp
  · simp only [List.map_cons, List.map_nil, List.mem_singleton]
    constructor
    · intro h
      cases h
      exact ⟨rfl, fun ⟨_⟩ h ↦ congrArg MethodId.mk h⟩
    · intro ⟨h, _⟩
      rw [← h]
  · -- Two positions in the list are different ones.
    refine iff_of_false nofun fun ⟨_, honly⟩ ↦ ?_
    have hi := honly ⟨i⟩ (by simp)
    have hj := honly ⟨j⟩ (by simp)
    cases hi
    cases hj
    simp at hnodup

/-- No method of the name has these parameters. -/
theorem declared_of_not_fits (h : ∀ id, ¬ t.Fits name params id) :
    t.declared name params = .error (.noSuchMethod t.decl.name name (sourceList params)) := by
  simp only [fits_iff] at h
  rw [declared_eq]
  rcases hfound : t.numbered name params with _ | ⟨⟨m, i⟩, rest⟩
  · rfl
  · exact absurd (by simp [hfound]) (h ⟨i⟩)

/-- Several methods of the name have these parameters. -/
theorem declared_of_fits_of_ne {id other : MethodId} (h : t.Fits name params id)
    (h' : t.Fits name params other) (hne : id ≠ other) :
    t.declared name params = .error (.ambiguousMethod t.decl.name name (sourceList params)
      ((t.overloads name params).map (·.type.descriptor))) := by
  rw [fits_iff] at h h'
  rw [declared_eq]
  rcases hfound : t.numbered name params with _ | ⟨⟨m, i⟩, _ | ⟨⟨n, j⟩, rest⟩⟩
  · rw [hfound] at h
    cases h
  · rw [hfound] at h h'
    simp only [List.map_cons, List.map_nil, List.mem_singleton] at h h'
    exact absurd (congrArg MethodId.mk (h.trans h'.symm)) hne
  · rfl

/-- The method at a position has a name and a descriptor. -/
def Describes (t : Editable) (name descriptor : String) (id : MethodId) : Prop :=
  ∃ m, t.method? id = some m ∧ m.name = name ∧ m.type.descriptor = descriptor

/-- Every method of a type can be told by its descriptor. -/
def Describable (t : Editable) : Prop := ∀ m ∈ t.decl.methods, m.type.Describable

variable {descriptor : String} {type : MethodTy}

/-- A method goes by the type that a text is read as if the text is its descriptor. -/
theorem Describable.describes_iff (ht : t.Describable)
    (htype : MethodTy.ofDescriptor descriptor = .ok type) :
    t.Describes name descriptor id ↔ ∃ m, t.method? id = some m ∧ m.goesBy name type = true := by
  refine exists_congr fun m ↦ and_congr_right fun hm ↦ ?_
  rw [MethodDecl.goesBy, Bool.and_eq_true, beq_iff_eq, beq_iff_eq]
  refine and_congr_right fun _ ↦ ⟨fun h ↦ ?_, fun h ↦ ?_⟩
  · have hread := MethodTy.ofDescriptor_eq_ok.mpr ⟨ht m (List.mem_of_getElem? hm), h⟩
    exact Except.ok.inj (hread.symm.trans htype)
  · rw [h]
    exact (MethodTy.ofDescriptor_eq_ok.mp htype).2

/-- What a search by a descriptor that can be read comes to. -/
theorem declaredBy_of_ofDescriptor (htype : MethodTy.ofDescriptor descriptor = .ok type)
    (t : Editable) (name : String) :
    t.declaredBy name descriptor = match t.decl.methods.findIdx? fun m ↦ m.goesBy name type with
      | some index => .ok ⟨index⟩
      | none => .error (.noSuchMethod t.decl.name name descriptor) := by
  rw [declaredBy, htype]
  rfl

/-- A method is found by a descriptor if it is the first one of its name that has it. -/
theorem Describable.declaredBy_eq_ok (ht : t.Describable) :
    t.declaredBy name descriptor = .ok id ↔ t.Describes name descriptor id ∧
      ∀ other, other.index < id.index → ¬ t.Describes name descriptor other := by
  cases htype : MethodTy.ofDescriptor descriptor with
  | error e =>
    refine iff_of_false ?_ ?_
    · rw [declaredBy, htype]
      exact nofun
    · -- The descriptor of a declared method can be read.
      rintro ⟨⟨m, hm, -, hdescriptor⟩, -⟩
      have hread := MethodTy.ofDescriptor_eq_ok.mpr ⟨ht m (List.mem_of_getElem? hm), hdescriptor⟩
      rw [htype] at hread
      cases hread
  | ok type =>
    simp only [declaredBy_of_ofDescriptor htype, ht.describes_iff htype]
    obtain ⟨index⟩ := id
    trans (t.decl.methods.findIdx? fun m ↦ m.goesBy name type) = some index
    · cases t.decl.methods.findIdx? fun m ↦ m.goesBy name type <;> simp
    · rw [List.findIdx?_eq_some_iff_getElem]
      simp only [method?, List.getElem?_eq_some_iff]
      constructor
      · rintro ⟨hlt, hgoes, hbefore⟩
        refine ⟨⟨_, ⟨hlt, rfl⟩, hgoes⟩, ?_⟩
        rintro other hother ⟨m, ⟨hlt', rfl⟩, hgoes'⟩
        exact hbefore other.index hother hgoes'
      · rintro ⟨⟨m, ⟨hlt, rfl⟩, hgoes⟩, hbefore⟩
        refine ⟨hlt, hgoes, fun j hj hgoes' ↦ ?_⟩
        exact hbefore ⟨j⟩ hj ⟨_, ⟨Nat.lt_trans hj hlt, rfl⟩, hgoes'⟩

/-- No method of the name has the descriptor. -/
theorem Describable.declaredBy_of_not_describes (ht : t.Describable)
    (h : ∀ id, ¬ t.Describes name descriptor id) :
    t.declaredBy name descriptor = (MethodTy.ofDescriptor descriptor).bind fun _ ↦
      .error (.noSuchMethod t.decl.name name descriptor) := by
  cases htype : MethodTy.ofDescriptor descriptor with
  | error e =>
    rw [declaredBy, htype]
    rfl
  | ok type =>
    simp only [ht.describes_iff htype] at h
    have hnone : (t.decl.methods.findIdx? fun m ↦ m.goesBy name type) = none := by
      refine List.findIdx?_eq_none_iff.mpr fun m hm ↦ ?_
      obtain ⟨i, hi⟩ := List.getElem?_of_mem hm
      exact Bool.eq_false_iff.mpr fun hgoes ↦ h ⟨i⟩ ⟨m, hi, hgoes⟩
    rw [declaredBy_of_ofDescriptor htype, hnone]
    rfl

end Editable

/-! ### Classes that a pool offers -/

namespace Pool

variable {p q : Pool} {lib : Library} {type : Ty}

/-- Asking the pool for the class at the bottom of a type succeeds. -/
def Offers (p : Pool) (lib : Library) (type : Ty) : Prop :=
  ∀ name, type.className? = some name → ∃ id q, p.get lib name = .ok (id, q)

/-- A name can be asked for if there is a class under it. -/
theorem exists_get_iff {name : String} :
    (∃ id q, p.get lib name = .ok (id, q)) ↔ (p.class? lib name).isSome = true := by
  constructor
  · rintro ⟨id, q, hget⟩
    have hget? := get_eq_ok.mp hget
    rw [class?, hget?]
    rcases get?_eq_ok hget? with ⟨hfound, -⟩ | ⟨_, hfound, hbound, rfl⟩ |
      ⟨decl, hnone, ⟨_, _, _, rfl⟩, rfl, hfound⟩
    · cases hfound
    · cases hfound
      obtain ⟨record, hrecord⟩ := exists_record_of_bound hbound
      simp only [hrecord]
      rfl
    · cases hfound
      simp only [record?_bind hnone]
      rfl
  · intro hclass
    rw [class?] at hclass
    split at hclass
    · next id q hget => exact ⟨id, q, get_eq_ok.mpr hget⟩
    · cases hclass

theorem know_eq_ok : (p.know lib type).1 = .ok () ↔ p.Offers lib type := by
  rw [know]
  cases hname : type.className? with
  | none =>
    refine iff_of_true rfl fun name h ↦ ?_
    rw [hname] at h
    cases h
  | some name =>
    have hoffers : p.Offers lib type ↔ ∃ id q, p.get lib name = .ok (id, q) := by
      rw [Offers, hname]
      exact ⟨fun h ↦ h name rfl, fun h other hother ↦ Option.some.inj hother ▸ h⟩
    rw [hoffers]
    cases hget : p.get lib name with
    | ok r =>
      refine iff_of_true ?_ ⟨r.1, r.2, rfl⟩
      simp only [hget]
    | error e => simp [hget]

/-- Looking names up does not change what a pool offers. -/
theorem Loads.offers_iff (h : p.Loads lib q) : q.Offers lib type ↔ p.Offers lib type := by
  simp only [Offers, exists_get_iff, h.keeps.class?]

theorem fst_resolveAll_cons {α : Type} (lib : Library) (read : α → Except Error Ty) (p : Pool)
    (a : α) (as : List α) :
    (resolveAll lib read p (a :: as)).1 = read a >>= fun type ↦
      (p.know lib type).1 >>= fun _ ↦
        (type :: ·) <$> (resolveAll lib read (p.know lib type).2 as).1 := by
  rw [resolveAll]
  cases read a with
  | error e => rfl
  | ok type =>
    simp only [Bind.bind, Except.bind]
    rcases p.know lib type with ⟨_ | _, q⟩
    · rfl
    · simp only
      rcases resolveAll lib read q as with ⟨_ | _, r⟩ <;> rfl

/-- Types are resolved if each description is one and their classes are offered. -/
theorem resolveAll_eq_ok {α : Type} {read : α → Except Error Ty} {as : List α} {types : List Ty} :
    (resolveAll lib read p as).1 = .ok types ↔
      List.Forall₂ (fun a type ↦ read a = .ok type) as types ∧
        ∀ type ∈ types, p.Offers lib type := by
  induction as generalizing p types with
  | nil =>
    rw [resolveAll]
    constructor
    · rintro ⟨⟩
      exact ⟨.nil, fun _ h ↦ absurd h List.not_mem_nil⟩
    · rintro ⟨⟨⟩, -⟩
      rfl
  | cons a as ih =>
    have hoffers : ∀ type t, (p.know lib t).2.Offers lib type ↔ p.Offers lib type :=
      fun type t ↦ (loads_know (p := p) (rfl : p.know lib t = (_, _))).offers_iff
    rw [fst_resolveAll_cons, List.forall₂_cons_left_iff, bind_eq_ok]
    constructor
    · rintro ⟨type, hread, h⟩
      obtain ⟨⟨⟩, hknow, h⟩ := bind_eq_ok.mp h
      obtain ⟨rest, hrest, rfl⟩ := map_eq_ok.mp h
      obtain ⟨hall, hrest⟩ := ih.mp hrest
      refine ⟨⟨type, rest, hread, hall, rfl⟩, List.forall_mem_cons.mpr ⟨know_eq_ok.mp hknow, ?_⟩⟩
      exact fun type' h ↦ (hoffers _ _).mp (hrest type' h)
    · rintro ⟨⟨type, rest, hread, hall, rfl⟩, hrest⟩
      obtain ⟨htype, hrest⟩ := List.forall_mem_cons.mp hrest
      refine ⟨type, hread, bind_eq_ok.mpr ⟨(), know_eq_ok.mpr htype, map_eq_ok.mpr
        ⟨rest, ih.mpr ⟨hall, fun type' h ↦ (hoffers _ _).mpr (hrest type' h)⟩, rfl⟩⟩⟩

/-- Looking names up puts records behind those that are there. -/
theorem Loads.isPrefix (h : p.Loads lib q) : p.bindings <+: q.bindings := by
  induction h with
  | refl => exact List.prefix_refl _
  | tail _ hstep ih =>
    obtain ⟨name, found, hget⟩ := hstep
    rcases get?_eq_ok hget with ⟨-, rfl⟩ | ⟨_, -, -, rfl⟩ | ⟨decl, hnone, ⟨_, _, _, rfl⟩, rfl, -⟩
    · exact ih
    · exact ih
    · rw [bindings_bind hnone]
      exact ih.trans (List.prefix_append ..)

end Pool

/-! ### Descriptions of parameters -/

/-- A description that is not a descriptor is one of these parameter types. -/
inductive Parameters.Denotes : Parameters → List Ty → Prop where
  | unspecified : Denotes .unspecified []
  | byName {names : List String} {types : List Ty} :
    List.Forall₂ (fun name type ↦ Ty.ofSourceName name = .ok type) names types →
    Denotes (.byName names) types
  | byType (types : List Reflected) : Denotes (.byType types) (types.map Reflected.toTy)

namespace Parameters

variable {params : Parameters} {types : List Ty} {lib : Library} {p : Pool} {t : Editable}
  {name : String} {id : MethodId}

/-- Descriptions that are read alike are resolved alike. -/
theorem resolveAll_map {α β : Type} {read : α → Except Error Ty} {read' : β → Except Error Ty}
    {f : α → β} {as : List α} (h : ∀ a ∈ as, read' (f a) = read a) (lib : Library) (p : Pool) :
    Pool.resolveAll lib read' p (as.map f) = Pool.resolveAll lib read p as := by
  induction as generalizing p with
  | nil => rfl
  | cons a as ih =>
    obtain ⟨ha, has⟩ := List.forall_mem_cons.mp h
    rw [List.map_cons, Pool.resolveAll, Pool.resolveAll, ha]
    simp only [ih has]

private theorem forall₂_reflected_iff {rs : List Reflected} {types : List Ty} :
    List.Forall₂ (fun r type ↦ (Except.ok r.toTy : Except Error Ty) = .ok type) rs types ↔
      types = rs.map Reflected.toTy := by
  simp only [Except.ok.injEq]
  rw [← List.forall₂_map_left_iff, List.forall₂_eq_eq_eq, eq_comm]

theorem fst_find_byName (names : List String) (lib : Library) (p : Pool) (t : Editable)
    (name : String) : ((byName names).find lib p t name).1 =
      (p.resolveNames lib names).1 >>= (t.declared name ·) := by
  simp only [find]
  rcases p.resolveNames lib names with ⟨_ | _, q⟩ <;> rfl

theorem fst_find_byType (types : List Reflected) (lib : Library) (p : Pool) (t : Editable)
    (name : String) : ((byType types).find lib p t name).1 =
      (p.resolveReflected lib types).1 >>= (t.declared name ·) := by
  simp only [find]
  rcases p.resolveReflected lib types with ⟨_ | _, q⟩ <;> rfl

/-- A description that is not a descriptor leads to a method if it is of parameter types whose
classes are offered, and those lead to the method. -/
theorem fst_find_eq_ok (hparams : ∀ descriptor, params ≠ .byDescriptor descriptor) :
    (params.find lib p t name).1 = .ok id ↔ ∃ types, params.Denotes types ∧
      (∀ type ∈ types, p.Offers lib type) ∧ t.declared name types = .ok id := by
  cases params with
  | unspecified =>
    constructor
    · exact fun h ↦ ⟨[], .unspecified, nofun, h⟩
    · rintro ⟨_, ⟨⟩, -, h⟩
      exact h
  | byName names =>
    simp only [fst_find_byName, bind_eq_ok, Pool.resolveNames, Pool.resolveAll_eq_ok]
    constructor
    · rintro ⟨types, ⟨hread, hoffers⟩, h⟩
      exact ⟨types, .byName hread, hoffers, h⟩
    · rintro ⟨types, hdenotes, hoffers, h⟩
      cases hdenotes with
      | byName hread => exact ⟨types, ⟨hread, hoffers⟩, h⟩
  | byType rs =>
    simp only [fst_find_byType, bind_eq_ok, Pool.resolveReflected, Pool.resolveAll_eq_ok,
      forall₂_reflected_iff]
    constructor
    · rintro ⟨_, ⟨rfl, hoffers⟩, h⟩
      exact ⟨_, .byType rs, hoffers, h⟩
    · rintro ⟨_, ⟨⟩, hoffers, h⟩
      exact ⟨_, ⟨rfl, hoffers⟩, h⟩
  | byDescriptor descriptor => exact absurd rfl (hparams descriptor)

/-- By the types that a description is, a method is looked for among the declared ones. -/
theorem fst_find_of_denotes (h : params.Denotes types)
    (hoffers : ∀ type ∈ types, p.Offers lib type) :
    (params.find lib p t name).1 = t.declared name types := by
  cases h with
  | unspecified => rfl
  | byName hread =>
    have hresult : (p.resolveNames lib _).1 = .ok types :=
      Pool.resolveAll_eq_ok.mpr ⟨hread, hoffers⟩
    rw [fst_find_byName, hresult]
    rfl
  | byType rs =>
    have hresult : (p.resolveReflected lib rs).1 = .ok (rs.map Reflected.toTy) :=
      Pool.resolveAll_eq_ok.mpr ⟨forall₂_reflected_iff.mpr rfl, hoffers⟩
    rw [fst_find_byType, hresult]
    rfl

/-- The names of reflected types lead to what the reflected types lead to. -/
theorem find_byName_sourceName {rs : List Reflected}
    (h : ∀ r ∈ rs, ∀ className, r.toTy.className? = some className → IsSourceClassName className)
    (lib : Library) (p : Pool) (t : Editable) (name : String) :
    (byName (rs.map Reflected.sourceName)).find lib p t name =
      (byType rs).find lib p t name := by
  have hbottom : ∀ r : Reflected, r.toTy.bottom ≠ .void := by
    intro r
    induction r with
    | array element ih => exact ih
    | _ => exact nofun
  have hread : ∀ r ∈ rs, Ty.ofSourceName r.sourceName = .ok r.toTy :=
    fun r hr ↦ Ty.ofSourceName_sourceName ⟨hbottom r, h r hr⟩
  simp only [find, Pool.resolveNames, Pool.resolveReflected, resolveAll_map hread]

end Parameters

/-! ### Resolving -/

namespace Patch

variable {σ : Type} {patch : Patch σ} {lib : Library} {p : Pool} {t : Editable} {name : String}
  {id : MethodId}

/-- Resolving by a method name is finding the method; why it fails is the cause of the failure. -/
theorem fst_resolve (hname : patch.method = some name) (lib : Library) (p : Pool) (t : Editable) :
    (patch.resolve lib p t).1 =
      ((patch.params.find lib p t name).1.map some).mapError
        (.methodNotFound patch.target name ·) := by
  rw [resolve, hname]
  simp only
  rcases patch.params.find lib p t name with ⟨_ | _, q⟩ <;> rfl

/-- What resolving comes to if the parameters are described by a list of types, or not at all. -/
structure ResolvesByTypes (patch : Patch σ) (lib : Library) (p : Pool) (t : Editable)
    (name : String) : Prop where
  found : ∀ id, (patch.resolve lib p t).1 = .ok (some id) ↔ ∃ types,
    patch.params.Denotes types ∧ (∀ type ∈ types, p.Offers lib type) ∧
    t.Fits name types id ∧ ∀ other, t.Fits name types other → other = id
  none : ∀ types, patch.params.Denotes types → (∀ type ∈ types, p.Offers lib type) →
    (∀ id, ¬ t.Fits name types id) → (patch.resolve lib p t).1 =
      .error (.methodNotFound patch.target name
        (.noSuchMethod t.decl.name name (Editable.sourceList types)))
  several : ∀ types, patch.params.Denotes types → (∀ type ∈ types, p.Offers lib type) →
    ∀ id other, t.Fits name types id → t.Fits name types other → id ≠ other →
    (patch.resolve lib p t).1 =
      .error (.methodNotFound patch.target name
        (.ambiguousMethod t.decl.name name (Editable.sourceList types)
          ((t.overloads name types).map (·.type.descriptor))))
  unknown : (∀ types, patch.params.Denotes types → ∃ type ∈ types, ¬ p.Offers lib type) →
    ∃ cause, (patch.resolve lib p t).1 = .error (.methodNotFound patch.target name cause)

/-- What resolving comes to if the parameters are described by a descriptor. -/
structure ResolvesByDescriptor (patch : Patch σ) (lib : Library) (p : Pool) (t : Editable)
    (name descriptor : String) : Prop where
  found : ∀ id, (patch.resolve lib p t).1 = .ok (some id) ↔ t.Describes name descriptor id ∧
    ∀ other, other.index < id.index → ¬ t.Describes name descriptor other
  none : (∀ id, ¬ t.Describes name descriptor id) → (patch.resolve lib p t).1 =
    ((MethodTy.ofDescriptor descriptor).bind fun _ ↦
      .error (.noSuchMethod t.decl.name name descriptor)).mapError
        (.methodNotFound patch.target name ·)

theorem fst_resolve_eq_ok (hname : patch.method = some name) :
    (patch.resolve lib p t).1 = .ok (some id) ↔ (patch.params.find lib p t name).1 = .ok id := by
  rw [fst_resolve hname, mapError_eq_ok]
  cases (patch.params.find lib p t name).1 <;> simp [Except.map]

theorem resolvesByTypes (hname : patch.method = some name)
    (hparams : ∀ descriptor, patch.params ≠ .byDescriptor descriptor) (lib : Library) (p : Pool)
    (t : Editable) : patch.ResolvesByTypes lib p t name where
  found id := by
    rw [fst_resolve_eq_ok hname, Parameters.fst_find_eq_ok hparams]
    simp only [Editable.declared_eq_ok]
  none types hdenotes hoffers h := by
    rw [fst_resolve hname, Parameters.fst_find_of_denotes hdenotes hoffers,
      Editable.declared_of_not_fits h]
    rfl
  several types hdenotes hoffers id other h h' hne := by
    rw [fst_resolve hname, Parameters.fst_find_of_denotes hdenotes hoffers,
      Editable.declared_of_fits_of_ne h h' hne]
    rfl
  unknown h := by
    rw [fst_resolve hname]
    cases hfind : (patch.params.find lib p t name).1 with
    | error e => exact ⟨e, rfl⟩
    | ok id =>
      obtain ⟨types, hdenotes, hoffers, -⟩ := (Parameters.fst_find_eq_ok hparams).mp hfind
      obtain ⟨type, htype, hmissing⟩ := h types hdenotes
      exact absurd (hoffers type htype) hmissing

theorem resolvesByDescriptor (hname : patch.method = some name) {descriptor : String}
    (hparams : patch.params = .byDescriptor descriptor) (ht : t.Describable) (lib : Library)
    (p : Pool) : patch.ResolvesByDescriptor lib p t name descriptor where
  found id := by
    rw [fst_resolve_eq_ok hname, hparams]
    exact ht.declaredBy_eq_ok
  none h := by
    rw [fst_resolve hname, hparams]
    show ((t.declaredBy name descriptor).map some).mapError _ = _
    rw [ht.declaredBy_of_not_describes h]
    cases MethodTy.ofDescriptor descriptor <;> rfl

/-- A method that is resolved, however it is described, is resolved by its own descriptor. -/
theorem resolve_byDescriptor (hname : patch.method = some name) (ht : t.Describable)
    (h : (patch.resolve lib p t).1 = .ok (some id)) :
    ∃ m, t.method? id = some m ∧ m.name = name ∧
      ∀ q, ({ patch with params := .byDescriptor m.type.descriptor } : Patch σ).resolve lib q t =
        (.ok (some id), q) := by
  have hdeclared : ∃ m, t.method? id = some m ∧ m.name = name ∧
      t.declaredBy name m.type.descriptor = .ok id := by
    by_cases hparams : ∃ descriptor, patch.params = .byDescriptor descriptor
    · obtain ⟨descriptor, hparams⟩ := hparams
      have hfirst := ((resolvesByDescriptor hname hparams ht lib p).found id).mp h
      obtain ⟨m, hm, hmname, hdescriptor⟩ := hfirst.1
      exact ⟨m, hm, hmname, ht.declaredBy_eq_ok.mpr (hdescriptor ▸ hfirst)⟩
    · have hfound := (resolvesByTypes hname (fun d hd ↦ hparams ⟨d, hd⟩) lib p t).found id
      obtain ⟨types, -, -, ⟨m, hm, hmname, rfl⟩, honly⟩ := hfound.mp h
      refine ⟨m, hm, hmname, ht.declaredBy_eq_ok.mpr ⟨⟨m, hm, hmname, rfl⟩, ?_⟩⟩
      -- An earlier method with the descriptor would have the parameters too.
      rintro other hlt ⟨n, hn, hnname, hdescriptor⟩
      have htype : n.type = m.type := injOn_of_reads (fun _ _ ↦ MethodTy.ofDescriptor_eq_ok)
        (ht n (List.mem_of_getElem? hn)) (ht m (List.mem_of_getElem? hm)) hdescriptor
      have hsame := honly other ⟨n, hn, hnname, congrArg MethodTy.params htype⟩
      exact Nat.lt_irrefl _ (hsame ▸ hlt)
  obtain ⟨m, hm, hmname, hdeclared⟩ := hdeclared
  refine ⟨m, hm, hmname, fun q ↦ ?_⟩
  simp only [resolve, hname, Parameters.find, hdeclared]

/-- Resolving a method that a patch names is exact. By parameter types, and without a description,
it comes to the one declared method that has the name and exactly these parameters, if the pool
offers their classes; several such methods are as much a failure as none. By a descriptor it comes
to the first declared method that has the name and the descriptor. The descriptions agree: a method
that is resolved is resolved by its own descriptor as well, and the names of reflected types do what
the types do. The pool keeps all its records as they are, and where it looks names up. -/
theorem resolve_exact (hname : patch.method = some name) (ht : t.Describable) (lib : Library)
    (p : Pool) :
    ((∀ descriptor, patch.params ≠ .byDescriptor descriptor) →
      patch.ResolvesByTypes lib p t name) ∧
    (∀ descriptor, patch.params = .byDescriptor descriptor →
      patch.ResolvesByDescriptor lib p t name descriptor) ∧
    (∀ id, (patch.resolve lib p t).1 = .ok (some id) → ∃ m, t.method? id = some m ∧
      m.name = name ∧ ∀ q,
        ({ patch with params := .byDescriptor m.type.descriptor } : Patch σ).resolve lib q t =
          (.ok (some id), q)) ∧
    (∀ rs : List Reflected,
      (∀ r ∈ rs, ∀ className, r.toTy.className? = some className →
        IsSourceClassName className) →
      ({ patch with params := .byName (rs.map Reflected.sourceName) } : Patch σ).resolve lib p t =
        ({ patch with params := .byType rs } : Patch σ).resolve lib p t) ∧
    p.bindings <+: (patch.resolve lib p t).2.bindings ∧
      (patch.resolve lib p t).2.classpath = p.classpath := by
  have hloads : p.Loads lib (patch.resolve lib p t).2 := loads_resolve rfl
  refine ⟨fun hparams ↦ resolvesByTypes hname hparams lib p t,
    fun descriptor hparams ↦ resolvesByDescriptor hname hparams ht lib p,
    fun id ↦ resolve_byDescriptor hname ht, fun rs hrs ↦ ?_, hloads.isPrefix,
    hloads.keeps.classpath⟩
  simp only [resolve, hname, Parameters.find_byName_sourceName hrs]

/-- A type with overloads that differ in a parameter, and with others that differ in the result. -/
def overloaded : Editable :=
  .ofDecl ⟨Flag.visible, "k.P", none, [],
    [⟨Flag.abstract, "add", ⟨[.prim .int], .void⟩, none⟩,
      ⟨Flag.abstract, "add", ⟨[.cls "k.P"], .void⟩, none⟩,
      ⟨Flag.abstract, "get", ⟨[], .prim .int⟩, none⟩,
      ⟨Flag.abstract, "get", ⟨[], .prim .long⟩, none⟩]⟩

/-- A patch of the second method, named by its parameter. -/
def ofSecond : Patch Unit := ⟨"k.P", some "add", .byName ["k.P"], fun _ _ e ↦ (.ok (), e)⟩

/-- A pool that has the type. -/
def havingOverloaded : Pool := ((Pool.new []).bind overloaded.decl).1

theorem describable_overloaded : overloaded.Describable := by
  have hread : ∀ m ∈ overloaded.decl.methods,
      MethodTy.ofDescriptor m.type.descriptor = .ok m.type := by
    intro m hm
    simp only [overloaded, Editable.ofDecl, List.mem_cons, List.not_mem_nil, or_false] at hm
    rcases hm with rfl | rfl | rfl | rfl <;> cbv
  exact fun m hm ↦ (MethodTy.ofDescriptor_eq_ok.mp (hread m hm)).1

/-- The second method is resolved by the name of its parameter, by the reflected parameter and by
the descriptor. -/
theorem ofSecond_resolve_exact :
    ofSecond.method = some "add" ∧ overloaded.Describable ∧
      (ofSecond.resolve ⟨#[]⟩ havingOverloaded overloaded).1 = .ok (some ⟨1⟩) ∧
      (∀ q, ({ ofSecond with params := .byDescriptor "(Lk/P;)V" } : Patch Unit).resolve ⟨#[]⟩ q
        overloaded = (.ok (some ⟨1⟩), q)) ∧
      ofSecond.resolve ⟨#[]⟩ havingOverloaded overloaded =
        ({ ofSecond with params := .byType [.cls ⟨0⟩ "k.P"] } : Patch Unit).resolve ⟨#[]⟩
          havingOverloaded overloaded := by
  have hname : ofSecond.method = some "add" := rfl
  have hresolve : (ofSecond.resolve ⟨#[]⟩ havingOverloaded overloaded).1 = .ok (some ⟨1⟩) := by
    decide +kernel
  obtain ⟨-, -, hown, halike, -⟩ :=
    resolve_exact hname describable_overloaded ⟨#[]⟩ havingOverloaded
  obtain ⟨m, hm, -, hdescriptor⟩ := hown ⟨1⟩ hresolve
  cases hm
  refine ⟨hname, describable_overloaded, hresolve, hdescriptor, halike [.cls ⟨0⟩ "k.P"] ?_⟩
  rintro r hr className hclass
  rw [List.mem_singleton.mp hr] at hclass
  cases hclass
  refine ⟨by decide, fun c hc ↦ ?_, fun kind ↦ by cases kind <;> decide, by decide⟩
  obtain rfl | rfl | rfl : c = 'k' ∨ c = '.' ∨ c = 'P' := by simpa using hc
  all_goals decide

end Patch

end Hotswap
