import Hotswap.Proofs.ClassImage
import Hotswap.Proofs.Evolution

/-!
# Layouts

What the tables of values and the look-up of methods depend on: the names of the static fields, the
names of the instance fields, and which methods there are. Definitions of one schema agree on all of
it, so that machines agree on it that have the same classes up to code.
-/

namespace Hotswap

/-! ### Definitions of one schema -/

/-- Method types that can be described are told apart by their descriptors. -/
theorem MethodTy.eq_of_descriptor_eq {a b : MethodTy} (ha : a.Describable) (hb : b.Describable)
    (h : a.descriptor = b.descriptor) : a = b := by
  have hread : ofDescriptor b.descriptor = .ok a := ofDescriptor_eq_ok.mpr ⟨ha, h⟩
  rw [ofDescriptor_eq_ok.mpr ⟨hb, rfl⟩] at hread
  exact (Except.ok.inj hread).symm

namespace ClassDecl

theorem mem_staticFields_iff {c : ClassDecl} {name : String} :
    name ∈ c.staticFields.map (·.name) ↔ ∃ descriptor, (name, descriptor, true) ∈ c.fieldSchema := by
  simp only [staticFields, fieldSchema, List.mem_map, List.mem_filter, Prod.mk.injEq]
  constructor
  · rintro ⟨f, ⟨hf, hstatic⟩, rfl⟩
    exact ⟨f.type.descriptor, f, hf, rfl, rfl, hstatic⟩
  · rintro ⟨_, f, hf, rfl, -, hstatic⟩
    exact ⟨f, ⟨hf, hstatic⟩, rfl⟩

theorem mem_instanceFields_iff {c : ClassDecl} {name : String} :
    name ∈ c.instanceFields.map (·.name) ↔
      ∃ descriptor, (name, descriptor, false) ∈ c.fieldSchema := by
  simp only [instanceFields, fieldSchema, List.mem_map, List.mem_filter, Prod.mk.injEq,
    Bool.not_eq_true']
  constructor
  · rintro ⟨f, ⟨hf, hstatic⟩, rfl⟩
    exact ⟨f.type.descriptor, f, hf, rfl, rfl, hstatic⟩
  · rintro ⟨_, f, hf, rfl, -, hstatic⟩
    exact ⟨f, ⟨hf, hstatic⟩, rfl⟩

/-- A class that was read has a method just if its schema has, and then the type of the method can
be described. -/
theorem isSome_method?_iff {c : ClassDecl} (hc : c.WellFormed) {name : String} {type : MethodTy} :
    (c.method? name type).isSome = true ↔
      type.Describable ∧ (name, type.descriptor) ∈ c.methodSchema := by
  simp only [method?, methodSchema, List.find?_isSome, MethodDecl.goesBy, Bool.and_eq_true,
    beq_iff_eq, List.mem_map, Prod.mk.injEq]
  constructor
  · rintro ⟨m, hm, rfl, rfl⟩
    exact ⟨(hc.methods m hm).type, m, hm, rfl, rfl⟩
  -- Schemas compare descriptors and look-up compares types: both sides must be describable.
  · rintro ⟨htype, m, hm, rfl, hdescriptor⟩
    exact ⟨m, hm, rfl, MethodTy.eq_of_descriptor_eq (hc.methods m hm).type htype hdescriptor⟩

variable {c d : ClassDecl}

theorem SameSchema.mem_staticFields (h : c.SameSchema d) (name : String) :
    name ∈ d.staticFields.map (·.name) ↔ name ∈ c.staticFields.map (·.name) := by
  simp only [mem_staticFields_iff, h.fields]

theorem SameSchema.mem_instanceFields (h : c.SameSchema d) (name : String) :
    name ∈ d.instanceFields.map (·.name) ↔ name ∈ c.instanceFields.map (·.name) := by
  simp only [mem_instanceFields_iff, h.fields]

theorem SameSchema.isSome_method? (h : c.SameSchema d) (hc : c.WellFormed) (hd : d.WellFormed)
    (name : String) (type : MethodTy) :
    (d.method? name type).isSome = (c.method? name type).isSome := by
  rw [Bool.eq_iff_iff, isSome_method?_iff hd, isSome_method?_iff hc, h.methods]

end ClassDecl

/-! ### Machines with the same classes -/

namespace Machine

/-- All the classes to which classes, objects and the system namespace refer are there. -/
structure Closed (m : Machine) : Prop where
  ancestors : ∀ id, ∀ a ∈ (m.cls id).ancestors, m.Has a
  system : ∀ name id, m.findLoaded name = some id → m.Has id
  objects : ∀ o ∈ m.objects, m.Has o.cls

/-- A machine has the classes of another one, with the same ancestors and schemas, and perhaps
more. -/
structure Extends (m m' : Machine) : Prop where
  has : ∀ id, m.Has id → m'.Has id
  ancestors : ∀ id, m.Has id → (m'.cls id).ancestors = (m.cls id).ancestors
  schema : ∀ id, m.Has id → (m.cls id).decl.SameSchema (m'.cls id).decl

variable {m m' m'' : Machine} {id : ClassId}

/-- Machines with the same classes extend each other. -/
theorem extends_of_classes_eq (h : m'.classes = m.classes) : m.Extends m' := by
  have hcls : ∀ id, m'.cls id = m.cls id := by
    intro id
    rw [cls, cls, h]
  constructor
  · intro id hid
    rwa [Has, h]
  · intro id _
    rw [hcls]
  · intro id _
    rw [hcls]
    exact .refl _

theorem Extends.refl (m : Machine) : m.Extends m := extends_of_classes_eq rfl

theorem Extends.trans (h : m.Extends m') (h' : m'.Extends m'') : m.Extends m'' := by
  constructor
  · intro id hid
    exact h'.has id (h.has id hid)
  · intro id hid
    rw [h'.ancestors id (h.has id hid), h.ancestors id hid]
  · intro id hid
    exact (h.schema id hid).trans (h'.schema id (h.has id hid))

/-- The chain of a class stays as it is. -/
theorem Extends.chain (h : m.Extends m') (hid : m.Has id) : m'.chain id = m.chain id := by
  rw [Machine.chain, Machine.chain, h.ancestors id hid]

/-- The classes of a chain are there. -/
theorem Closed.has_of_mem_chain (hm : m.Closed) (hid : m.Has id) {c : ClassId}
    (hc : c ∈ m.chain id) : m.Has c := by
  rcases List.mem_cons.mp hc with rfl | hc
  · exact hid
  · exact hm.ancestors id c hc

theorem mem_instanceFields_iff {field : String} :
    field ∈ (m.instanceFields id).map (·.name) ↔
      ∃ c ∈ m.chain id, field ∈ (m.cls c).decl.instanceFields.map (·.name) := by
  simp only [instanceFields, List.mem_map, List.mem_flatMap, List.mem_reverse]
  constructor
  · rintro ⟨f, ⟨c, hc, hf⟩, rfl⟩
    exact ⟨c, hc, f, hf, rfl⟩
  · rintro ⟨c, hc, f, hf, rfl⟩
    exact ⟨f, ⟨c, hc, hf⟩, rfl⟩

/-- The instances of a class keep the names of their fields. -/
theorem Extends.mem_instanceFields (h : m.Extends m') (hm : m.Closed) (hid : m.Has id)
    (field : String) :
    field ∈ (m'.instanceFields id).map (·.name) ↔ field ∈ (m.instanceFields id).map (·.name) := by
  rw [mem_instanceFields_iff, mem_instanceFields_iff, h.chain hid]
  constructor
  · rintro ⟨c, hc, hfield⟩
    have hschema := h.schema c (hm.has_of_mem_chain hid hc)
    exact ⟨c, hc, (hschema.mem_instanceFields field).mp hfield⟩
  · rintro ⟨c, hc, hfield⟩
    have hschema := h.schema c (hm.has_of_mem_chain hid hc)
    exact ⟨c, hc, (hschema.mem_instanceFields field).mpr hfield⟩

/-- The class with which a method is found is the first one of the chain that declares it. -/
theorem map_fst_lookupMethod (m : Machine) (id : ClassId) (name : String) (type : MethodTy) :
    (m.lookupMethod id name type).map Prod.fst =
      (m.chain id).find? fun c ↦ ((m.cls c).decl.method? name type).isSome := by
  rw [lookupMethod]
  induction m.chain id with
  | nil => rfl
  | cons c rest ih =>
    rw [List.findSome?_cons, List.find?_cons]
    cases hmethod : (m.cls c).decl.method? name type with
    | none => simpa using ih
    | some d => rfl

/-- The methods of a class are found with the classes with which they were found. -/
theorem Extends.lookupMethod (h : m.Extends m') (hm : m.Closed) (hid : m.Has id)
    (hformed : ∀ id, (m.cls id).decl.WellFormed) (hformed' : ∀ id, (m'.cls id).decl.WellFormed)
    (name : String) (type : MethodTy) :
    (m'.lookupMethod id name type).map Prod.fst = (m.lookupMethod id name type).map Prod.fst := by
  rw [map_fst_lookupMethod, map_fst_lookupMethod, h.chain hid]
  apply List.find?_congr
  intro c hc
  have hschema := h.schema c (hm.has_of_mem_chain hid hc)
  exact hschema.isSome_method? (hformed c) (hformed' c) name type

/-- Nothing is found from where there is no class. -/
theorem lookupMethod_of_not_has (hid : ¬ m.Has id) (name : String) (type : MethodTy) :
    m.lookupMethod id name type = none := by
  have hchain : m.chain id = [id] := by
    rw [chain, cls_of_not_has hid]
    rfl
  rw [lookupMethod, hchain, List.findSome?_singleton, cls_of_not_has hid]
  rfl

/-! ### Linking and changing classes -/

theorem has_addClass_iff {c : LiveClass} :
    (m.addClass c).1.Has id ↔ m.Has id ∨ id = (m.addClass c).2 := by
  obtain ⟨n⟩ := id
  simp only [Has, addClass, Array.size_push, ClassId.mk.injEq]
  omega

theorem cls_addClass_of_has {c : LiveClass} (hid : m.Has id) :
    (m.addClass c).1.cls id = m.cls id := by
  rw [Has] at hid
  simp [addClass, cls, Array.getD_eq_getD_getElem?, Array.getElem?_push, Nat.ne_of_lt hid]

/-- What holds of a linked class and of the others holds of every class. -/
theorem addClass_cases {P : LiveClass → Prop} {c : LiveClass} (id : ClassId) (hnew : P c)
    (hold : P (m.cls id)) : P ((m.addClass c).1.cls id) := by
  by_cases hid : id.index = m.classes.size
  · simpa [addClass, cls, Array.getD_eq_getD_getElem?, hid] using hnew
  · have hsame : (m.addClass c).1.cls id = m.cls id := by
      simp [addClass, cls, Array.getD_eq_getD_getElem?, Array.getElem?_push, hid]
    rwa [hsame]

theorem extends_addClass (m : Machine) (c : LiveClass) : m.Extends (m.addClass c).1 := by
  constructor
  · intro id hid
    exact has_addClass_iff.mpr (.inl hid)
  · intro id hid
    rw [cls_addClass_of_has hid]
  · intro id hid
    rw [cls_addClass_of_has hid]
    exact .refl _

/-- A change that keeps the ancestors and the schema of a class keeps those of all. -/
theorem extends_modifyClass {f : LiveClass → LiveClass}
    (hancestors : (f (m.cls id)).ancestors = (m.cls id).ancestors)
    (hschema : (m.cls id).decl.SameSchema (f (m.cls id)).decl) :
    m.Extends (m.modifyClass id f) := by
  constructor
  · intro id' hid'
    rwa [has_modifyClass_iff]
  · intro id' _
    apply modifyClass_cases (P := fun c ↦ c.ancestors = (m.cls id').ancestors) id'
    · rintro rfl
      exact hancestors
    · rfl
  · intro id' _
    apply modifyClass_cases (P := fun c ↦ (m.cls id').decl.SameSchema c.decl) id'
    · rintro rfl
      exact hschema
    · exact .refl _

end Machine

end Hotswap
