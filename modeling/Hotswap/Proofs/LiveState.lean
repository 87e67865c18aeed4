import Hotswap.Proofs.Layouts

/-!
# Live state in step with definitions

The tables of static values and of field values are filled once, from the definitions of that time.
They stay in step with the definitions: a class is linked with a table for its own static fields, an
object is made with a table for the fields that its class has then, storing puts values only under
keys that are there, and a redefinition keeps the layout on which the tables rest. For this to last,
whatever refers to a class must refer to one that is there.
-/

namespace Hotswap

/-- The table of static values has an entry for each static field, and the definition is one that
an image can hold. -/
structure LiveClass.InStep (c : LiveClass) : Prop where
  formed : c.decl.WellFormed
  statics : ∀ field, field ∈ c.statics.keys ↔ field ∈ c.decl.staticFields.map (·.name)

theorem LiveClass.inStep_default : (default : LiveClass).InStep :=
  ⟨⟨rfl, nofun, nofun⟩, fun _ ↦ Iff.rfl⟩

/-- A class that has just been linked is in step. -/
theorem LiveClass.inStep_link {decl : ClassDecl} (h : decl.WellFormed) (loader : Nat)
    (ancestors : List ClassId) : (link loader decl ancestors).InStep := by
  refine ⟨h, fun field ↦ ?_⟩
  rw [link, initialStatics, Table.mem_keys_ofList, List.map_map]
  rfl

namespace Machine

/-- One operation turned a machine into another one. Unlike with `Change`, objects are made only of
classes that are there. -/
inductive Operation : Machine → Machine → Prop where
  | load {m m' : Machine} (lib : Library) (name : String) (id : ClassId) :
    m.load lib name = .ok (id, m') → Operation m m'
  | define {m m' : Machine} (lib : Library) (image : List UInt8) (id : ClassId) :
    m.define lib image = .ok (id, m') → Operation m m'
  | redefine {m m' : Machine} (batch : List Replacement) (ids : List ClassId) :
    m.redefine batch = .ok (ids, m') → Operation m m'
  | allocate {m : Machine} {id : ClassId} : m.Has id → Operation m (allocate id m).2
  | setStatic (m : Machine) (id : ClassId) (field : String) (v : Value) :
    Operation m (setStatic id field v m).2
  | setField (m : Machine) (id : ObjectId) (field : String) (v : Value) :
    Operation m (setField id field v m).2
  | appendClasspath (m : Machine) (source : Nat) :
    Operation m { m with classpath := m.classpath ++ [source] }

/-- Operations one after the other turned a machine into another one. -/
def Operates : Machine → Machine → Prop := Relation.ReflTransGen Operation

/-- The tables of the classes and of the objects are in step with the definitions. -/
structure InStep (m : Machine) : Prop where
  closed : m.Closed
  classes : ∀ id, (m.cls id).InStep
  fields : ∀ o ∈ m.objects, ∀ field,
    field ∈ o.fields.keys ↔ field ∈ (m.instanceFields o.cls).map (·.name)

theorem closed_new (config : Config) (classpath : Classpath) : (new config classpath).Closed := by
  constructor
  · exact fun _ _ ↦ nofun
  · exact fun _ _ ↦ nofun
  · intro o ho
    simp [new] at ho

theorem inStep_new (config : Config) (classpath : Classpath) : (new config classpath).InStep := by
  constructor
  · exact closed_new config classpath
  · exact fun _ ↦ LiveClass.inStep_default
  · intro o ho
    simp [new] at ho

variable {m m' : Machine}

/-- A machine stays in step that gets classes, or other definitions of the same layout. -/
theorem InStep.extend (hm : m.InStep) (h : m.Extends m') (hclosed : m'.Closed)
    (hclasses : ∀ id, (m'.cls id).InStep) (hobjects : m'.objects = m.objects) : m'.InStep := by
  refine ⟨hclosed, hclasses, fun o ho field ↦ ?_⟩
  rw [hobjects] at ho
  rw [hm.fields o ho, h.mem_instanceFields hm.closed (hm.closed.objects o ho)]

/-! ### Linking -/

/-- A class is linked behind ancestors that are there, and perhaps gets its name in the system
namespace. -/
inductive Links (m : Machine) : Machine → Prop where
  | link {decl : ClassDecl} {ancestors : List ClassId} {system : Table String ClassId}
    (loader : Nat) (defined : List ClassId) (nextLoader : Nat) : decl.WellFormed →
    (∀ a ∈ ancestors, m.Has a) →
    (∀ name id, system.get? name = some id →
      m.findLoaded name = some id ∨ id = ⟨m.classes.size⟩) →
    Links m { (m.addClass (.link loader decl ancestors)).1 with system, defined, nextLoader }

theorem Links.extends (h : m.Links m') : m.Extends m' := by
  cases h with
  | link loader defined nextLoader =>
    have hadd := extends_addClass m
    exact ⟨(hadd _).has, (hadd _).ancestors, (hadd _).schema⟩

theorem Links.closed (h : m.Links m') (hm : m.Closed) : m'.Closed := by
  have hextends := h.extends
  cases h with
  | @link decl ancestors system loader defined nextLoader hformed hancestors hsystem =>
    constructor
    · intro id
      apply addClass_cases (P := fun c ↦ ∀ a ∈ c.ancestors, Has _ a) id
      · exact fun a ha ↦ hextends.has a (hancestors a ha)
      · exact fun a ha ↦ hextends.has a (hm.ancestors id a ha)
    · intro name id hid
      apply has_addClass_iff.mpr
      rcases hsystem name id hid with hold | rfl
      · exact .inl (hm.system name id hold)
      · exact .inr rfl
    · exact fun o ho ↦ hextends.has o.cls (hm.objects o ho)

theorem Links.inStep (h : m.Links m') (hm : m.InStep) : m'.InStep := by
  have hextends := h.extends
  have hclosed := h.closed hm.closed
  cases h with
  | link loader defined nextLoader hformed hancestors =>
    apply hm.extend hextends hclosed
    · intro id
      apply addClass_cases (P := LiveClass.InStep) id
      · exact LiveClass.inStep_link hformed loader _
      · exact hm.classes id
    · rfl

/-- Any number of classes are linked, one after the other. -/
def LinksAll : Machine → Machine → Prop := Relation.ReflTransGen Links

theorem LinksAll.extends (h : m.LinksAll m') : m.Extends m' := by
  induction h with
  | refl => exact .refl m
  | tail _ hlast ih => exact ih.trans hlast.extends

theorem LinksAll.closed (h : m.LinksAll m') (hm : m.Closed) : m'.Closed := by
  induction h with
  | refl => exact hm
  | tail _ hlast ih => exact hlast.closed ih

theorem LinksAll.inStep (h : m.LinksAll m') (hm : m.InStep) : m'.InStep := by
  induction h with
  | refl => exact hm
  | tail _ hlast ih => exact hlast.inStep ih

theorem wellFormed_of_readClass {image : List UInt8} {decl : ClassDecl}
    (h : m.readClass image = .ok decl) : decl.WellFormed :=
  ClassDecl.wellFormed_of_decode (readClass_eq_ok.mp h).1

/-- The superclass of a class is loaded by linking, and the class then has ancestors that are
there. -/
theorem Closed.ancestry {load : Machine → String → Except Error (ClassId × Machine)}
    {superName : Option String} {ancestors : List ClassId} (hm : m.Closed)
    (hload : ∀ name id m', load m name = .ok (id, m') → m.LinksAll m' ∧ m'.Has id)
    (h : Ancestry load m superName ancestors m') :
    m.LinksAll m' ∧ ∀ a ∈ ancestors, m'.Has a := by
  cases superName with
  | none =>
    obtain ⟨rfl, rfl⟩ := h
    exact ⟨.refl, nofun⟩
  | some name =>
    obtain ⟨id, h, rfl⟩ := h
    obtain ⟨hlinks, hid⟩ := hload name id m' h
    exact ⟨hlinks, fun a ha ↦ (hlinks.closed hm).has_of_mem_chain hid ha⟩

/-- Loading links the classes that are not loaded yet, the superclasses first. -/
theorem Closed.loadWithin {lib : Library} {levels : Nat} {name : String} {id : ClassId}
    (hm : m.Closed) (h : loadWithin lib levels m name = .ok (id, m')) :
    m.LinksAll m' ∧ m'.Has id := by
  induction levels generalizing m m' name id with
  | zero =>
    rcases loadWithin_eq_ok h with ⟨hfound, rfl⟩ | ⟨below, decl, ancestors, m₁, hlevels, -⟩
    · exact ⟨.refl, hm.system name id hfound⟩
    · cases hlevels
  | succ levels ih =>
    rcases loadWithin_eq_ok h with
      ⟨hfound, rfl⟩ | ⟨below, decl, ancestors, m₁, hlevels, -, hfind, hsuper, rfl, rfl⟩
    · exact ⟨.refl, hm.system name id hfound⟩
    · cases hlevels
      -- The superclass is linked before the class, so its chain is there by then.
      obtain ⟨hlinks, hancestors⟩ := hm.ancestry (fun _ _ _ hload ↦ ih hm hload) hsuper
      obtain ⟨image, hread⟩ := exists_readClass_of_findClass hfind
      constructor
      · apply hlinks.tail
        apply Links.link 0 m₁.defined m₁.nextLoader (wellFormed_of_readClass hread) hancestors
        intro other id' hid'
        rw [Table.get?_put] at hid'
        split at hid'
        · exact .inr (Option.some.inj hid').symm
        · exact .inl hid'
      · exact has_addClass_iff.mpr (.inr rfl)

theorem Closed.load {lib : Library} {name : String} {id : ClassId} (hm : m.Closed)
    (h : m.load lib name = .ok (id, m')) : m.LinksAll m' ∧ m'.Has id := hm.loadWithin h

/-- Defining links the class last. -/
theorem Closed.define {lib : Library} {image : List UInt8} {id : ClassId} (hm : m.Closed)
    (h : m.define lib image = .ok (id, m')) : m.LinksAll m' := by
  obtain ⟨decl, ancestors, m₁, hread, hsuper, -, rfl⟩ := define_eq_ok h
  obtain ⟨hlinks, hancestors⟩ := hm.ancestry (fun _ _ _ hload ↦ hm.load hload) hsuper
  apply hlinks.tail
  apply Links.link m₁.nextLoader _ _ (wellFormed_of_readClass hread) hancestors
  exact fun _ _ hid ↦ .inl hid

/-! ### Redefining -/

theorem Takes.extends {u : Replacement} {decl : ClassDecl} (h : m.Takes u decl) :
    m.Extends (m.swap u.cls decl) := extends_modifyClass rfl h.2.2

theorem Closed.modifyClass {id : ClassId} {f : LiveClass → LiveClass} (hm : m.Closed)
    (hancestors : (f (m.cls id)).ancestors = (m.cls id).ancestors) :
    (m.modifyClass id f).Closed := by
  constructor
  · intro id' a ha
    rw [has_modifyClass_iff]
    revert ha
    apply modifyClass_cases (P := fun c ↦ a ∈ c.ancestors → m.Has a) id'
    · rintro -
      rw [hancestors]
      exact hm.ancestors id a
    · exact hm.ancestors id' a
  · exact fun name id' hid' ↦ has_modifyClass_iff.mpr (hm.system name id' hid')
  · exact fun o ho ↦ has_modifyClass_iff.mpr (hm.objects o ho)

/-- A class that changes in step leaves the machine in step. -/
theorem InStep.modifyClass {id : ClassId} {f : LiveClass → LiveClass} (hm : m.InStep)
    (hancestors : (f (m.cls id)).ancestors = (m.cls id).ancestors)
    (hschema : (m.cls id).decl.SameSchema (f (m.cls id)).decl)
    (hstep : (f (m.cls id)).InStep) : (m.modifyClass id f).InStep := by
  apply hm.extend (extends_modifyClass hancestors hschema) (hm.closed.modifyClass hancestors)
  · intro id'
    exact modifyClass_cases id' (fun _ ↦ hstep) (hm.classes id')
  · rfl

/-- A definition of the same schema fits the table of static values that is there. -/
theorem InStep.swap {u : Replacement} {decl : ClassDecl} (hm : m.InStep) (h : m.Takes u decl) :
    (m.swap u.cls decl).InStep := by
  apply hm.modifyClass
  · rfl
  · exact h.2.2
  · refine ⟨ClassDecl.wellFormed_of_decode h.1, fun field ↦ ?_⟩
    rw [h.2.2.mem_staticFields]
    exact (hm.classes u.cls).statics field

/-! ### Making objects and storing -/

/-- What holds of the machine, and of the machine with an object more, holds after an object was to
be made. -/
theorem allocate_cases {P : Machine → Prop} {id : ClassId} (hkeep : P m)
    (hmade : P { m with objects := m.objects.push ⟨id, m.initialFields id⟩ }) :
    P (allocate id m).2 := by
  unfold allocate
  split
  · exact hkeep
  · exact hmade

/-- What holds of the machine, and of the machine in which a static field was set, holds after a
static field was to be set. -/
theorem setStatic_cases {P : Machine → Prop} {id : ClassId} {field : String} {v : Value}
    (hkeep : P m) (hset : field ∈ (m.cls id).statics.keys →
      P (m.modifyClass id fun c ↦ { c with statics := c.statics.put field v })) :
    P (setStatic id field v m).2 := by
  unfold setStatic
  split
  · next hfield => exact hset (Table.contains_iff_mem_keys.mp hfield)
  · exact hkeep

/-- What holds of the machine, and of the machine in which a field of an object was set, holds after
a field was to be set. -/
theorem setField_cases {P : Machine → Prop} {id : ObjectId} {field : String} {v : Value}
    (hkeep : P m) (hset : field ∈ (m.object id).fields.keys →
      P (m.modifyObject id fun o ↦ { o with fields := o.fields.put field v })) :
    P (setField id field v m).2 := by
  unfold setField
  split
  · next hfield => exact hset (Table.contains_iff_mem_keys.mp hfield)
  · exact hkeep

/-- What holds of a changed object and of the others holds of every object. -/
theorem modifyObject_cases {P : Instance → Prop} {id : ObjectId} {f : Instance → Instance}
    (hchanged : m.object id ∈ m.objects → P (f (m.object id))) (hold : ∀ o ∈ m.objects, P o) :
    ∀ o ∈ (m.modifyObject id f).objects, P o := by
  intro o ho
  obtain ⟨n, hn, rfl⟩ := Array.mem_iff_getElem.mp ho
  simp only [modifyObject, Array.size_modify] at hn
  simp only [modifyObject, Array.getElem_modify]
  split
  · next heq =>
    have hobject : m.object id = m.objects[n] := by
      rw [object, heq, Array.getD_eq_getD_getElem?, Array.getElem?_eq_getElem hn]
      rfl
    rw [← hobject]
    apply hchanged
    rw [hobject]
    exact Array.getElem_mem hn
  · exact hold _ (Array.getElem_mem hn)

theorem Closed.allocate {id : ClassId} (hm : m.Closed) (hid : m.Has id) :
    (allocate id m).2.Closed := by
  apply allocate_cases (P := Closed)
  · exact hm
  · refine ⟨hm.ancestors, hm.system, fun o ho ↦ ?_⟩
    rcases Array.mem_push.mp ho with ho | rfl
    · exact hm.objects o ho
    · exact hid

/-- An object is made with the fields that its class has. -/
theorem InStep.allocate {id : ClassId} (hm : m.InStep) (hid : m.Has id) :
    (allocate id m).2.InStep := by
  have hclosed := hm.closed.allocate hid
  revert hclosed
  apply allocate_cases (P := fun m ↦ m.Closed → m.InStep)
  · exact fun _ ↦ hm
  · intro hclosed
    refine ⟨hclosed, hm.classes, fun o ho field ↦ ?_⟩
    rcases Array.mem_push.mp ho with ho | rfl
    · exact hm.fields o ho field
    · rw [initialFields, Table.mem_keys_ofList, List.map_map]
      rfl

theorem InStep.setStatic (hm : m.InStep) (id : ClassId) (field : String) (v : Value) :
    (setStatic id field v m).2.InStep := by
  apply setStatic_cases (P := InStep)
  · exact hm
  · intro hfield
    apply hm.modifyClass
    · rfl
    · exact .refl _
    · refine ⟨(hm.classes id).formed, fun other ↦ ?_⟩
      rw [Table.mem_keys_put_of_mem hfield]
      exact (hm.classes id).statics other

theorem Closed.setField (hm : m.Closed) (id : ObjectId) (field : String) (v : Value) :
    (setField id field v m).2.Closed := by
  apply setField_cases (P := Closed)
  · exact hm
  · intro _
    refine ⟨hm.ancestors, hm.system, ?_⟩
    apply modifyObject_cases (P := fun o ↦ m.Has o.cls)
    · exact hm.objects _
    · exact hm.objects

theorem InStep.setField (hm : m.InStep) (id : ObjectId) (field : String) (v : Value) :
    (setField id field v m).2.InStep := by
  have hclosed := hm.closed.setField id field v
  revert hclosed
  apply setField_cases (P := fun m ↦ m.Closed → m.InStep)
  · exact fun _ ↦ hm
  · intro hfield hclosed
    refine ⟨hclosed, hm.classes, ?_⟩
    apply modifyObject_cases (P := fun o ↦ ∀ other,
      other ∈ o.fields.keys ↔ other ∈ (m.instanceFields o.cls).map (·.name))
    · intro hobject other
      rw [Table.mem_keys_put_of_mem hfield]
      exact hm.fields _ hobject other
    · exact hm.fields

/-! ### Operations -/

/-- Classes stay, with their layouts. -/
theorem Operation.extends (h : m.Operation m') (hm : m.Closed) : m.Extends m' := by
  cases h with
  | load lib name id h => exact (hm.load h).1.extends
  | define lib image id h => exact (hm.define h).extends
  | redefine batch ids h =>
    exact redefine_induction (fun _ _ _ hm₁ htakes ↦ hm₁.trans htakes.extends) (.refl m) h
  | allocate => exact allocate_cases (P := m.Extends) (.refl m) (extends_of_classes_eq rfl)
  | setStatic id field v =>
    exact setStatic_cases (P := m.Extends) (.refl m) fun _ ↦ extends_modifyClass rfl (.refl _)
  | setField id field v =>
    exact setField_cases (P := m.Extends) (.refl m) fun _ ↦ extends_of_classes_eq rfl
  | appendClasspath source => exact extends_of_classes_eq rfl

theorem Operation.closed (h : m.Operation m') (hm : m.Closed) : m'.Closed := by
  cases h with
  | load lib name id h => exact (hm.load h).1.closed hm
  | define lib image id h => exact (hm.define h).closed hm
  | redefine batch ids h => exact redefine_induction (fun _ _ _ hm _ ↦ hm.modifyClass rfl) hm h
  | allocate hid => exact hm.allocate hid
  | setStatic id field v => exact setStatic_cases (P := Closed) hm fun _ ↦ hm.modifyClass rfl
  | setField id field v => exact hm.setField id field v
  | appendClasspath source => exact ⟨hm.ancestors, hm.system, hm.objects⟩

/-- No operation gets the tables out of step with the definitions. -/
theorem Operation.inStep (h : m.Operation m') (hm : m.InStep) : m'.InStep := by
  cases h with
  | load lib name id h => exact (hm.closed.load h).1.inStep hm
  | define lib image id h => exact (hm.closed.define h).inStep hm
  | redefine batch ids h => exact redefine_induction (fun _ _ _ ↦ InStep.swap) hm h
  | allocate hid => exact hm.allocate hid
  | setStatic id field v => exact hm.setStatic id field v
  | setField id field v => exact hm.setField id field v
  | appendClasspath source =>
    exact ⟨⟨hm.closed.ancestors, hm.closed.system, hm.closed.objects⟩, hm.classes, hm.fields⟩

theorem Operates.closed (h : m.Operates m') (hm : m.Closed) : m'.Closed := by
  induction h with
  | refl => exact hm
  | tail _ hlast ih => exact hlast.closed ih

theorem Operates.extends (h : m.Operates m') (hm : m.Closed) : m.Extends m' := by
  induction h with
  | refl => exact .refl m
  | tail hfirst hlast ih => exact ih.trans (hlast.extends (Operates.closed hfirst hm))

/-- Whatever operations a machine goes through, its tables stay in step. -/
theorem Operates.inStep (h : m.Operates m') (hm : m.InStep) : m'.InStep := by
  induction h with
  | refl => exact hm
  | tail _ hlast ih => exact hlast.inStep ih

/-- A redefinition leaves it to the same class to declare a method. -/
theorem InStep.lookupMethod_redefine {batch : List Replacement} {ids : List ClassId}
    (hm : m.InStep) (h : m.redefine batch = .ok (ids, m')) (id : ClassId) (name : String)
    (type : MethodTy) :
    (m'.lookupMethod id name type).map Prod.fst = (m.lookupMethod id name type).map Prod.fst := by
  have hoperation : m.Operation m' := .redefine batch ids h
  by_cases hid : m.Has id
  · have hm' := hoperation.inStep hm
    exact (hoperation.extends hm.closed).lookupMethod hm.closed hid
      (fun c ↦ (hm.classes c).formed) (fun c ↦ (hm'.classes c).formed) name type
  · -- A number without a class gets none by a redefinition.
    have hid' : ¬ m'.Has id := by
      obtain ⟨-, changes, -, -, rfl⟩ := redefine_eq_ok.mp h
      rwa [Has, size_classes_swapAll]
    rw [lookupMethod_of_not_has hid, lookupMethod_of_not_has hid']

end Machine

end Hotswap
