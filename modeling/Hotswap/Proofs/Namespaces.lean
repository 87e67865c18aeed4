import Hotswap.Proofs.LoadedNames

/-!
# Namespaces

The classes that were loaded share the system namespace, in which each name means one class. Every
class that was defined is alone in a namespace of its own and is found under no name. Whatever its
namespace, a class is linked behind a class of the system namespace that was there before it. No
operation of the machine changes any of this, and nothing that was found under a name is ever found
there no more.
-/

namespace Hotswap

namespace Machine

variable {m m' m'' : Machine} {lib : Library}

/-- The ancestors of a class with some superclass: none, or the chain of the class of the system
namespace that is found under the name. -/
def Behind (m : Machine) (superName : Option String) (ancestors : List ClassId) : Prop :=
  match superName with
  | none => ancestors = []
  | some name => ∃ a, m.findLoaded name = some a ∧ ancestors = m.chain a

/-- The namespaces of a machine are apart: a class is found under a name just if it is of the system
namespace and has the name; the other classes are those that were defined, in namespaces that they
share with no class; and each class is linked behind a class of the system namespace, all its
ancestors being older than it is. -/
structure Isolated (m : Machine) : Prop where
  closed : m.Closed
  name : ∀ id, m.className id = (m.cls id).decl.name
  system : ∀ name id, m.findLoaded name = some id ↔
    m.Has id ∧ (m.cls id).isSystem = true ∧ m.className id = name
  defined : ∀ id, id ∈ m.defined ↔ m.Has id ∧ (m.cls id).isSystem = false
  loaders : (m.defined.map fun id ↦ (m.cls id).loader).Nodup
  loader_lt : ∀ id, (m.cls id).loader < m.nextLoader
  behind : ∀ id, m.Has id → m.Behind (m.cls id).decl.superName (m.cls id).ancestors
  older : ∀ id, ∀ a ∈ (m.cls id).ancestors, a.index < id.index

/-- A machine has the classes of another one, in the namespaces and behind the ancestors that they
had, and what was found under a name or was defined still is. -/
structure Retains (m m' : Machine) : Prop where
  has : ∀ id, m.Has id → m'.Has id
  name : ∀ id, m.Has id → m'.className id = m.className id
  loader : ∀ id, m.Has id → (m'.cls id).loader = (m.cls id).loader
  ancestors : ∀ id, m.Has id → (m'.cls id).ancestors = (m.cls id).ancestors
  system : ∀ name id, m.findLoaded name = some id → m'.findLoaded name = some id
  defined : ∀ id, id ∈ m.defined → id ∈ m'.defined

theorem Retains.refl (m : Machine) : m.Retains m :=
  ⟨fun _ h ↦ h, fun _ _ ↦ rfl, fun _ _ ↦ rfl, fun _ _ ↦ rfl, fun _ _ h ↦ h, fun _ h ↦ h⟩

theorem Retains.trans (h : m.Retains m') (h' : m'.Retains m'') : m.Retains m'' where
  has id hid := h'.has id (h.has id hid)
  name id hid := (h'.name id (h.has id hid)).trans (h.name id hid)
  loader id hid := (h'.loader id (h.has id hid)).trans (h.loader id hid)
  ancestors id hid := (h'.ancestors id (h.has id hid)).trans (h.ancestors id hid)
  system name id hid := h'.system name id (h.system name id hid)
  defined id hid := h'.defined id (h.defined id hid)

/-- A superclass that was found still is, with the same chain. -/
theorem Retains.behind (h : m.Retains m') (hm : m.Closed) {superName : Option String}
    {ancestors : List ClassId} (hbehind : m.Behind superName ancestors) :
    m'.Behind superName ancestors := by
  cases superName with
  | none => exact hbehind
  | some name =>
    obtain ⟨a, ha, rfl⟩ := hbehind
    refine ⟨a, h.system name a ha, ?_⟩
    rw [chain, chain, h.ancestors a (hm.system name a ha)]

/-! ### What is so in a machine whose namespaces are apart -/

/-- A class that was defined is found under no name. -/
theorem Isolated.findLoaded_ne (hm : m.Isolated) {id : ClassId} (hid : id ∈ m.defined)
    (name : String) : m.findLoaded name ≠ some id := by
  intro hfound
  have hdefined := ((hm.defined id).mp hid).2
  rw [((hm.system name id).mp hfound).2.1] at hdefined
  cases hdefined

/-- A superclass is an older class of the system namespace, with the name that the definition
gives. -/
theorem Isolated.superclass (hm : m.Isolated) {id a : ClassId}
    (h : (m.cls id).superclass? = some a) :
    a.index < id.index ∧ (m.cls a).isSystem = true ∧
      (m.cls id).decl.superName = some (m.className a) ∧ (m.cls id).ancestors = m.chain a := by
  obtain ⟨rest, hrest⟩ := List.head?_eq_some_iff.mp h
  have hid : m.Has id := by
    by_contra hid
    rw [cls_of_not_has hid] at hrest
    cases hrest
  have hbehind := hm.behind id hid
  cases hname : (m.cls id).decl.superName with
  | none =>
    rw [hname, Behind, hrest] at hbehind
    cases hbehind
  | some name =>
    rw [hname] at hbehind
    obtain ⟨b, hb, hchain⟩ := hbehind
    obtain rfl : a = b := by
      rw [hrest] at hchain
      exact (List.cons.inj hchain).1
    obtain ⟨-, hsystem, hclass⟩ := (hm.system name a).mp hb
    exact ⟨hm.older id a (hrest ▸ .head rest), hsystem, congrArg some hclass.symm, hchain⟩

/-- A class has a superclass just if its definition names one. -/
theorem Isolated.superclass?_eq_none_iff (hm : m.Isolated) (id : ClassId) :
    (m.cls id).superclass? = none ↔ (m.cls id).decl.superName = none := by
  rw [LiveClass.superclass?, List.head?_eq_none_iff]
  by_cases hid : m.Has id
  · have hbehind := hm.behind id hid
    cases hname : (m.cls id).decl.superName with
    | none =>
      rw [hname] at hbehind
      exact iff_of_true hbehind rfl
    | some name =>
      rw [hname] at hbehind
      obtain ⟨a, -, hchain⟩ := hbehind
      rw [hchain, chain]
      exact iff_of_false (List.cons_ne_nil _ _) (Option.some_ne_none name)
  · rw [cls_of_not_has hid]
    exact iff_of_true rfl rfl

/-- In a chain every class is older than those before it, so that a chain ends and meets no class
twice. -/
theorem Isolated.pairwise_chain (hm : m.Isolated) (id : ClassId) :
    (m.chain id).Pairwise fun a b ↦ b.index < a.index := by
  -- The chain goes on with that of the superclass, which is older.
  induction hn : id.index using Nat.strongRecOn generalizing id with
  | _ n ih =>
    rw [chain, List.pairwise_cons]
    refine ⟨fun a ha ↦ hm.older id a ha, ?_⟩
    cases hsuper : (m.cls id).superclass? with
    | none =>
      rw [LiveClass.superclass?, List.head?_eq_none_iff] at hsuper
      rw [hsuper]
      exact .nil
    | some a =>
      obtain ⟨holder, -, -, hchain⟩ := hm.superclass hsuper
      rw [hchain]
      exact ih a.index (hn ▸ holder) a rfl

/-- The chain of an ancestor is the end of the chain. -/
theorem Isolated.chain_suffix (hm : m.Isolated) {id c : ClassId} (hc : c ∈ m.chain id) :
    m.chain c <:+ m.chain id := by
  induction hn : id.index using Nat.strongRecOn generalizing id with
  | _ n ih =>
    rcases List.mem_cons.mp hc with rfl | hc
    · exact List.suffix_refl _
    · cases hsuper : (m.cls id).superclass? with
      | none =>
        rw [LiveClass.superclass?, List.head?_eq_none_iff] at hsuper
        rw [hsuper] at hc
        cases hc
      | some a =>
        obtain ⟨holder, -, -, hchain⟩ := hm.superclass hsuper
        rw [hchain] at hc
        have hsuffix := ih a.index (hn ▸ holder) hc rfl
        have hcons : m.chain id = id :: m.chain a := congrArg (id :: ·) hchain
        rw [hcons]
        exact hsuffix.trans (List.suffix_cons id _)

/-! ### Linking a class -/

/-- A machine has one class more than another one. -/
structure Linked (m : Machine) (c : LiveClass) (m' : Machine) : Prop where
  has : ∀ id, m'.Has id ↔ m.Has id ∨ id = ⟨m.classes.size⟩
  old : ∀ id, m.Has id → m'.cls id = m.cls id
  new : m'.cls ⟨m.classes.size⟩ = c

theorem linked_of_classes_eq {c : LiveClass} (h : m'.classes = (m.addClass c).1.classes) :
    m.Linked c m' := by
  have hcls : ∀ id, m'.cls id = (m.addClass c).1.cls id := by
    intro id
    rw [cls, cls, h]
  refine ⟨fun id ↦ ?_, fun id hid ↦ ?_, ?_⟩
  · rw [Has, h]
    exact has_addClass_iff
  · rw [hcls, cls_addClass_of_has hid]
  · rw [hcls]
    exact m.cls_addClass_new c

theorem not_has_size (m : Machine) : ¬ m.Has ⟨m.classes.size⟩ := Nat.lt_irrefl m.classes.size

/-- What holds of a linked class and of the others holds of every class that is there. -/
theorem Linked.cases {c : LiveClass} {P : ClassId → LiveClass → Prop} (h : m.Linked c m')
    (hnew : P ⟨m.classes.size⟩ c) (hold : ∀ id, m.Has id → P id (m.cls id)) (id : ClassId)
    (hid : m'.Has id) : P id (m'.cls id) := by
  rcases (h.has id).mp hid with hid | rfl
  · rw [h.old id hid]
    exact hold id hid
  · rw [h.new]
    exact hnew

/-- Linking a class retains the others. -/
theorem Linked.retains {c : LiveClass} (h : m.Linked c m')
    (hsystem : ∀ name id, m.findLoaded name = some id → m'.findLoaded name = some id)
    (hdefined : ∀ id ∈ m.defined, id ∈ m'.defined) : m.Retains m' where
  has id hid := (h.has id).mpr (.inl hid)
  name id hid := congrArg LiveClass.name (h.old id hid)
  loader id hid := congrArg LiveClass.loader (h.old id hid)
  ancestors id hid := congrArg LiveClass.ancestors (h.old id hid)
  system := hsystem
  defined := hdefined

/-- What may be linked: a class that goes by the name of its definition, behind a class of the
system namespace. -/
structure Linkable (m : Machine) (c : LiveClass) : Prop where
  name : c.name = c.decl.name
  behind : m.Behind c.decl.superName c.ancestors

theorem linkable_link {decl : ClassDecl} {ancestors : List ClassId}
    (h : m.Behind decl.superName ancestors) (loader : Nat) :
    m.Linkable (.link loader decl ancestors) := ⟨rfl, h⟩

theorem Linkable.has {c : LiveClass} (h : m.Linkable c) (hm : m.Closed) :
    ∀ a ∈ c.ancestors, m.Has a := by
  have hbehind := h.behind
  cases hsuper : c.decl.superName with
  | none =>
    rw [hsuper, Behind] at hbehind
    rw [hbehind]
    exact List.forall_mem_nil _
  | some name =>
    rw [hsuper] at hbehind
    obtain ⟨a, ha, hchain⟩ := hbehind
    rw [hchain]
    exact fun b hb ↦ hm.has_of_mem_chain (hm.system name a ha) hb

/-- What every machine whose namespaces are apart keeps when a class is linked, whatever its
namespace. -/
theorem Isolated.of_linked {c : LiveClass} (hm : m.Isolated) (h : m.Linked c m')
    (hc : m.Linkable c) (hclosed : m'.Closed) (hretains : m.Retains m')
    (hsystem : ∀ name id, m'.findLoaded name = some id ↔
      m'.Has id ∧ (m'.cls id).isSystem = true ∧ m'.className id = name)
    (hdefined : ∀ id, id ∈ m'.defined ↔ m'.Has id ∧ (m'.cls id).isSystem = false)
    (hloaders : (m'.defined.map fun id ↦ (m'.cls id).loader).Nodup)
    (hnext : m.nextLoader ≤ m'.nextLoader) (hlt : c.loader < m'.nextLoader) : m'.Isolated where
  closed := hclosed
  name id := by
    by_cases hid : m'.Has id
    · exact h.cases (P := fun _ c ↦ c.name = c.decl.name) hc.name (fun id _ ↦ hm.name id) id hid
    · rw [className, cls_of_not_has hid]
      rfl
  system := hsystem
  defined := hdefined
  loaders := hloaders
  loader_lt id := by
    by_cases hid : m'.Has id
    · apply h.cases (P := fun _ c ↦ c.loader < m'.nextLoader) hlt _ id hid
      exact fun id _ ↦ Nat.lt_of_lt_of_le (hm.loader_lt id) hnext
    · rw [cls_of_not_has hid]
      exact Nat.lt_of_le_of_lt (Nat.zero_le _) hlt
  behind id hid := by
    apply h.cases (P := fun _ c ↦ m'.Behind c.decl.superName c.ancestors) _ _ id hid
    · exact hretains.behind hm.closed hc.behind
    · exact fun id hid ↦ hretains.behind hm.closed (hm.behind id hid)
  older id := by
    by_cases hid : m'.Has id
    · apply h.cases (P := fun id c ↦ ∀ a ∈ c.ancestors, a.index < id.index) _ _ id hid
      · exact hc.has hm.closed
      · exact fun id _ ↦ hm.older id
    · rw [cls_of_not_has hid]
      exact List.forall_mem_nil _

/-- The namespaces stay apart when a class is loaded: when it is linked in the system namespace and
found from then on under its name, under which none was found. -/
theorem Isolated.link_system {c : LiveClass} (hm : m.Isolated) (h : m.Linked c m')
    (hc : m.Linkable c) (hclosed : m'.Closed) (hloader : c.loader = 0)
    (hnone : m.findLoaded c.name = none)
    (hsystem : m'.system = m.system.put c.name ⟨m.classes.size⟩) (hdefined : m'.defined = m.defined)
    (hnext : m'.nextLoader = m.nextLoader) : m'.Isolated ∧ m.Retains m' := by
  have hsystem_iff : ∀ name id, m'.findLoaded name = some id ↔
      m.findLoaded name = some id ∨ id = ⟨m.classes.size⟩ ∧ c.name = name := by
    intro name id
    rw [findLoaded, hsystem, Table.get?_put]
    split
    · next hname =>
      subst hname
      rw [hnone]
      simp [eq_comm]
    · next hname => simp [findLoaded, hname]
  have hretains : m.Retains m' := by
    refine h.retains (fun name id hid ↦ (hsystem_iff name id).mpr (.inl hid)) fun id hid ↦ ?_
    rwa [hdefined]
  refine ⟨hm.of_linked h hc hclosed hretains ?_ ?_ ?_ (Nat.le_of_eq hnext.symm) ?_, hretains⟩
  · intro name id
    rw [hsystem_iff, hm.system]
    by_cases hid : m.Has id
    · have hne : id ≠ ⟨m.classes.size⟩ := fun heq ↦ m.not_has_size (heq ▸ hid)
      simp [h.has, className, h.old id hid, hid, hne]
    · by_cases heq : id = ⟨m.classes.size⟩
      · subst heq
        simp [h.has, className, h.new, hid, LiveClass.isSystem, hloader]
      · simp [h.has, hid, heq]
  · intro id
    rw [hdefined, hm.defined]
    by_cases hid : m.Has id
    · simp [h.has, h.old id hid, hid]
    · by_cases heq : id = ⟨m.classes.size⟩
      · subst heq
        simp [h.has, h.new, hid, LiveClass.isSystem, hloader]
      · simp [h.has, hid, heq]
  · rw [hdefined]
    refine (List.map_congr_left fun id hid ↦ ?_) ▸ hm.loaders
    rw [h.old id ((hm.defined id).mp hid).1]
  · rw [hloader, hnext]
    exact Nat.lt_of_le_of_lt (Nat.zero_le _) (hm.loader_lt ⟨0⟩)

/-- The namespaces stay apart when a class is defined: when it is linked in the next namespace. -/
theorem Isolated.link_defined {c : LiveClass} (hm : m.Isolated) (h : m.Linked c m')
    (hc : m.Linkable c) (hclosed : m'.Closed) (hloader : c.loader = m.nextLoader)
    (hsystem : m'.system = m.system) (hdefined : m'.defined = m.defined ++ [⟨m.classes.size⟩])
    (hnext : m'.nextLoader = m.nextLoader + 1) : m'.Isolated ∧ m.Retains m' := by
  have hfound : ∀ name, m'.findLoaded name = m.findLoaded name := by
    intro name
    rw [findLoaded, findLoaded, hsystem]
  have hne : m.nextLoader ≠ 0 :=
    Nat.ne_of_gt (Nat.lt_of_le_of_lt (Nat.zero_le _) (hm.loader_lt ⟨0⟩))
  have hretains : m.Retains m' := by
    refine h.retains (fun name id hid ↦ (hfound name).trans hid) fun id hid ↦ ?_
    rw [hdefined]
    exact List.mem_append_left _ hid
  refine ⟨hm.of_linked h hc hclosed hretains ?_ ?_ ?_ (hnext ▸ Nat.le_succ _) ?_, hretains⟩
  · intro name id
    rw [hfound, hm.system]
    by_cases hid : m.Has id
    · simp [h.has, className, h.old id hid, hid]
    · by_cases heq : id = ⟨m.classes.size⟩
      · subst heq
        simp [h.has, h.new, hid, LiveClass.isSystem, hloader, hne]
      · simp [h.has, hid, heq]
  · intro id
    rw [hdefined, List.mem_append, List.mem_singleton, hm.defined]
    by_cases hid : m.Has id
    · have hne : id ≠ ⟨m.classes.size⟩ := fun heq ↦ m.not_has_size (heq ▸ hid)
      simp [h.has, h.old id hid, hid, hne]
    · by_cases heq : id = ⟨m.classes.size⟩
      · subst heq
        simp [h.has, h.new, LiveClass.isSystem, hloader, hne]
      · simp [h.has, hid, heq]
  · rw [hdefined, List.map_append, List.map_singleton, h.new, hloader]
    have hsame : m.defined.map (fun id ↦ (m'.cls id).loader) =
        m.defined.map fun id ↦ (m.cls id).loader :=
      List.map_congr_left fun id hid ↦ by rw [h.old id ((hm.defined id).mp hid).1]
    rw [hsame]
    refine List.nodup_append.mpr ⟨hm.loaders, List.nodup_singleton _, ?_⟩
    -- All namespaces that were given out are below the next one.
    intro loader hloader next hnext
    obtain ⟨id, -, rfl⟩ := List.mem_map.mp hloader
    rw [List.mem_singleton.mp hnext]
    exact Nat.ne_of_lt (hm.loader_lt id)
  · rw [hloader, hnext]
    exact Nat.lt_succ_self _

/-! ### Loading and defining -/

theorem loadWithin_of_findLoaded {name : String} {id : ClassId} (h : m.findLoaded name = some id)
    (lib : Library) (levels : Nat) : loadWithin lib levels m name = .ok (id, m) := by
  unfold loadWithin
  simp only [h]

/-- What loading the superclass of a class comes to: the class can be linked behind it, and every
name that is new in the system namespace is that of one of its ancestors. -/
structure Climbed (lib : Library) (m : Machine) (superName : Option String)
    (ancestors : List ClassId) (m' : Machine) : Prop where
  isolated : m'.Isolated
  retains : m.Retains m'
  behind : m'.Behind superName ancestors
  fresh : ∀ other c, m'.findLoaded other = some c → m.findLoaded other = some c ∨
    c ∈ ancestors ∧ m.findClass lib other = .ok (m'.cls c).decl
  defined : m'.defined = m.defined

/-- A name that was not found is not found yet when the superclass of its class has been loaded:
else its class would stand among the ancestors of its own superclass. -/
theorem Climbed.findLoaded_eq_none {name : String} {decl : ClassDecl} {ancestors : List ClassId}
    (h : Climbed lib m decl.superName ancestors m') (hnone : m.findLoaded name = none)
    (hfind : m.findClass lib name = .ok decl) : m'.findLoaded name = none := by
  cases hfound : m'.findLoaded name with
  | none => rfl
  | some c =>
    exfalso
    rcases h.fresh name c hfound with hold | ⟨hc, hdecl⟩
    · rw [hnone] at hold
      cases hold
    · have hhas := h.isolated.closed.system name c hfound
      have hown := h.isolated.behind c hhas
      rw [← Except.ok.inj (hfind.symm.trans hdecl)] at hown
      have hbehind := h.behind
      cases hsuper : decl.superName with
      | none =>
        rw [hsuper, Behind] at hbehind
        rw [hbehind] at hc
        cases hc
      | some superName =>
        rw [hsuper] at hown hbehind
        obtain ⟨a, ha, hchain⟩ := hown
        obtain ⟨b, hb, rfl⟩ := hbehind
        obtain rfl : a = b := Option.some.inj (ha.symm.trans hb)
        -- The class has the chain of its superclass for ancestors, and is in it.
        have holder := h.isolated.older c c
        rw [hchain] at holder
        exact Nat.lt_irrefl _ (holder hc)

/-- What loading a name comes to: its class is found under it, and every name that is new in the
system namespace is that of the class or of one of its ancestors. -/
structure Loaded (lib : Library) (m : Machine) (name : String) (id : ClassId) (m' : Machine) :
    Prop where
  isolated : m'.Isolated
  retains : m.Retains m'
  found : m'.findLoaded name = some id
  fresh : ∀ other c, m'.findLoaded other = some c → m.findLoaded other = some c ∨
    c ∈ m'.chain id ∧ m.findClass lib other = .ok (m'.cls c).decl
  defined : m'.defined = m.defined

theorem Isolated.climbed {load : Machine → String → Except Error (ClassId × Machine)}
    {superName : Option String} {ancestors : List ClassId} (hm : m.Isolated)
    (hload : ∀ name id m', load m name = .ok (id, m') → Loaded lib m name id m')
    (h : Ancestry load m superName ancestors m') : Climbed lib m superName ancestors m' := by
  cases superName with
  | none =>
    obtain ⟨rfl, rfl⟩ := h
    exact ⟨hm, .refl m', rfl, fun _ _ ↦ .inl, rfl⟩
  | some name =>
    obtain ⟨id, h, rfl⟩ := h
    have hloaded := hload name id m' h
    exact ⟨hloaded.isolated, hloaded.retains, ⟨id, hloaded.found, rfl⟩, hloaded.fresh,
      hloaded.defined⟩

/-- Loading keeps the namespaces apart. -/
theorem Isolated.loadWithin {levels : Nat} {name : String} {id : ClassId} (hm : m.Isolated)
    (h : loadWithin lib levels m name = .ok (id, m')) : Loaded lib m name id m' := by
  have hclosed' : m'.Closed := (hm.closed.loadWithin h).1.closed hm.closed
  -- By induction on the levels: the superclass is loaded with fewer of them.
  induction levels generalizing m m' name id with
  | zero =>
    rcases loadWithin_eq_ok h with ⟨hfound, rfl⟩ | ⟨below, decl, ancestors, m₁, hlevels, -⟩
    · exact ⟨hm, .refl m', hfound, fun _ _ ↦ .inl, rfl⟩
    · cases hlevels
  | succ levels ih =>
    rcases loadWithin_eq_ok h with
      ⟨hfound, rfl⟩ | ⟨below, decl, ancestors, m₁, hlevels, hnone, hfind, hsuper, rfl, hm'⟩
    · exact ⟨hm, .refl m', hfound, fun _ _ ↦ .inl, rfl⟩
    · cases hlevels
      obtain rfl := name_of_findClass hfind
      have hclimbed : Climbed lib m decl.superName ancestors m₁ :=
        hm.climbed (fun _ _ _ hload ↦
          ih hm hload ((hm.closed.loadWithin hload).1.closed hm.closed)) hsuper
      have hlinked : m₁.Linked (.link 0 decl ancestors) m' := linked_of_classes_eq (by rw [hm'])
      have hsystem : m'.system = m₁.system.put decl.name ⟨m₁.classes.size⟩ := by rw [hm']
      have hdefined : m'.defined = m₁.defined := by rw [hm']; rfl
      obtain ⟨hisolated, hretains⟩ := hclimbed.isolated.link_system hlinked
        (linkable_link hclimbed.behind 0) hclosed' rfl
        (hclimbed.findLoaded_eq_none hnone hfind) hsystem hdefined (by rw [hm']; rfl)
      have hfound : ∀ other, m'.findLoaded other =
          if decl.name = other then some ⟨m₁.classes.size⟩ else m₁.findLoaded other := by
        intro other
        rw [findLoaded, hsystem, Table.get?_put]
        rfl
      refine ⟨hisolated, hclimbed.retains.trans hretains, by rw [hfound, if_pos rfl], ?_,
        hdefined.trans hclimbed.defined⟩
      intro other c hc
      rw [hfound] at hc
      split at hc
      · next hother =>
        obtain rfl := Option.some.inj hc
        refine .inr ⟨.head _, ?_⟩
        rw [hlinked.new, ← hother]
        exact hfind
      · rcases hclimbed.fresh other c hc with hold | ⟨hancestor, hdecl⟩
        · exact .inl hold
        · refine .inr ⟨.tail _ ?_, ?_⟩
          · rw [hlinked.new]
            exact hancestor
          · rw [hlinked.old c (hclimbed.isolated.closed.system other c hc)]
            exact hdecl

theorem Isolated.load {name : String} {id : ClassId} (hm : m.Isolated)
    (h : m.load lib name = .ok (id, m')) : Loaded lib m name id m' := hm.loadWithin h

/-- What defining a class comes to: its superclass is loaded, and the class is linked behind it. -/
theorem Isolated.exists_climbed_of_define {image : List UInt8} {id : ClassId} (hm : m.Isolated)
    (h : m.define lib image = .ok (id, m')) :
    ∃ decl ancestors m₁, Ancestry (Machine.load · lib) m decl.superName ancestors m₁ ∧
      Climbed lib m decl.superName ancestors m₁ ∧
      m₁.Linked (.link m₁.nextLoader decl ancestors) m' ∧ id = ⟨m₁.classes.size⟩ ∧
      m'.system = m₁.system ∧ m'.defined = m₁.defined ++ [id] ∧
      m'.nextLoader = m₁.nextLoader + 1 := by
  obtain ⟨decl, ancestors, m₁, -, hsuper, rfl, hm'⟩ := define_eq_ok h
  refine ⟨decl, ancestors, m₁, hsuper, hm.climbed (fun _ _ _ hload ↦ hm.load hload) hsuper,
    linked_of_classes_eq (by rw [hm']), rfl, ?_, ?_, ?_⟩
  · rw [hm']
    rfl
  · rw [hm']
  · rw [hm']

/-- Defining keeps the namespaces apart, and makes a class that was not there. -/
theorem Isolated.define {image : List UInt8} {id : ClassId} (hm : m.Isolated)
    (h : m.define lib image = .ok (id, m')) :
    m'.Isolated ∧ m.Retains m' ∧ ¬ m.Has id ∧ m'.defined = m.defined ++ [id] := by
  have hclosed' : m'.Closed := (hm.closed.define h).closed hm.closed
  obtain ⟨decl, ancestors, m₁, -, hclimbed, hlinked, rfl, hsystem, hdefined, hnext⟩ :=
    hm.exists_climbed_of_define h
  obtain ⟨hisolated, hretains⟩ := hclimbed.isolated.link_defined hlinked
    (linkable_link hclimbed.behind _) hclosed' rfl hsystem hdefined hnext
  refine ⟨hisolated, hclimbed.retains.trans hretains, ?_, by rw [hdefined, hclimbed.defined]⟩
  exact fun hid ↦ m₁.not_has_size (hclimbed.retains.has _ hid)

/-! ### The other operations -/

/-- Two machines have the same classes in the same namespaces, behind the same ancestors, and the
classes go by the same names and superclasses. -/
structure SameNamespaces (m m' : Machine) : Prop where
  has : ∀ id, m'.Has id ↔ m.Has id
  name : ∀ id, m'.className id = m.className id
  loader : ∀ id, (m'.cls id).loader = (m.cls id).loader
  ancestors : ∀ id, (m'.cls id).ancestors = (m.cls id).ancestors
  schema : ∀ id, (m.cls id).decl.SameSchema (m'.cls id).decl
  system : m'.system = m.system
  defined : m'.defined = m.defined
  nextLoader : m'.nextLoader = m.nextLoader

/-- Machines with the same classes in the same places have the same namespaces, whatever else they
have. -/
theorem sameNamespaces_of_classes_eq (h : m'.classes = m.classes) (hsystem : m'.system = m.system)
    (hdefined : m'.defined = m.defined) (hnext : m'.nextLoader = m.nextLoader) :
    m.SameNamespaces m' := by
  have hcls : ∀ id, m'.cls id = m.cls id := by
    intro id
    rw [cls, cls, h]
  refine ⟨fun id ↦ by rw [Has, Has, h], fun id ↦ congrArg LiveClass.name (hcls id),
    fun id ↦ congrArg LiveClass.loader (hcls id), fun id ↦ congrArg LiveClass.ancestors (hcls id),
    fun id ↦ ?_, hsystem, hdefined, hnext⟩
  rw [hcls]
  exact .refl _

theorem SameNamespaces.refl (m : Machine) : m.SameNamespaces m :=
  sameNamespaces_of_classes_eq rfl rfl rfl rfl

theorem SameNamespaces.trans (h : m.SameNamespaces m') (h' : m'.SameNamespaces m'') :
    m.SameNamespaces m'' where
  has id := (h'.has id).trans (h.has id)
  name id := (h'.name id).trans (h.name id)
  loader id := (h'.loader id).trans (h.loader id)
  ancestors id := (h'.ancestors id).trans (h.ancestors id)
  schema id := (h.schema id).trans (h'.schema id)
  system := h'.system.trans h.system
  defined := h'.defined.trans h.defined
  nextLoader := h'.nextLoader.trans h.nextLoader

/-- A change of one class that keeps its place and its schema leaves the namespaces as they are. -/
theorem sameNamespaces_modifyClass {id : ClassId} {f : LiveClass → LiveClass}
    (hname : (f (m.cls id)).name = (m.cls id).name)
    (hloader : (f (m.cls id)).loader = (m.cls id).loader)
    (hancestors : (f (m.cls id)).ancestors = (m.cls id).ancestors)
    (hschema : (m.cls id).decl.SameSchema (f (m.cls id)).decl) :
    m.SameNamespaces (m.modifyClass id f) where
  has _ := has_modifyClass_iff
  name id' := modifyClass_cases (P := fun c ↦ c.name = (m.cls id').name) id'
    (fun h ↦ h ▸ hname) rfl
  loader id' := modifyClass_cases (P := fun c ↦ c.loader = (m.cls id').loader) id'
    (fun h ↦ h ▸ hloader) rfl
  ancestors id' := modifyClass_cases (P := fun c ↦ c.ancestors = (m.cls id').ancestors) id'
    (fun h ↦ h ▸ hancestors) rfl
  schema id' := modifyClass_cases (P := fun c ↦ (m.cls id').decl.SameSchema c.decl) id'
    (fun h ↦ h ▸ hschema) (.refl _)
  system := rfl
  defined := rfl
  nextLoader := rfl

/-- A redefinition leaves the namespaces as they are. -/
theorem sameNamespaces_redefine {batch : List Replacement} {ids : List ClassId}
    (h : m.redefine batch = .ok (ids, m')) : m.SameNamespaces m' := by
  refine redefine_induction (P := m.SameNamespaces) (fun _ _ _ hm htakes ↦ ?_) (.refl m) h
  exact hm.trans (sameNamespaces_modifyClass rfl rfl rfl htakes.2.2)

theorem SameNamespaces.isolated (h : m.SameNamespaces m') (hm : m.Isolated)
    (hclosed : m'.Closed) : m'.Isolated ∧ m.Retains m' := by
  have hfound : ∀ name, m'.findLoaded name = m.findLoaded name := by
    intro name
    rw [findLoaded, findLoaded, h.system]
  have hisSystem : ∀ id, (m'.cls id).isSystem = (m.cls id).isSystem := by
    intro id
    rw [LiveClass.isSystem, LiveClass.isSystem, h.loader]
  have hretains : m.Retains m' :=
    ⟨fun id ↦ (h.has id).mpr, fun id _ ↦ h.name id, fun id _ ↦ h.loader id,
      fun id _ ↦ h.ancestors id, fun name id hid ↦ (hfound name).trans hid,
      fun id hid ↦ h.defined ▸ hid⟩
  refine ⟨?_, hretains⟩
  constructor
  case closed => exact hclosed
  case name =>
    intro id
    rw [h.name, hm.name, (h.schema id).name]
  case system =>
    intro name id
    rw [hfound, h.has, hisSystem, h.name]
    exact hm.system name id
  case defined =>
    intro id
    rw [h.defined, h.has, hisSystem]
    exact hm.defined id
  case loaders =>
    rw [h.defined]
    simpa only [h.loader] using hm.loaders
  case loader_lt =>
    intro id
    rw [h.loader, h.nextLoader]
    exact hm.loader_lt id
  case behind =>
    intro id hid
    rw [(h.schema id).superName, h.ancestors]
    exact hretains.behind hm.closed (hm.behind id ((h.has id).mp hid))
  case older =>
    intro id
    rw [h.ancestors]
    exact hm.older id

theorem isolated_new (config : Config) (classpath : Classpath) :
    (new config classpath).Isolated := by
  have hnone : ∀ id, ¬ (new config classpath).Has id := fun _ ↦ Nat.not_lt_zero _
  constructor
  case closed => exact closed_new config classpath
  case name => exact fun _ ↦ rfl
  case system => exact fun name id ↦ ⟨nofun, fun h ↦ absurd h.1 (hnone id)⟩
  case defined => exact fun id ↦ ⟨nofun, fun h ↦ absurd h.1 (hnone id)⟩
  case loaders => exact .nil
  case loader_lt => exact fun _ ↦ Nat.one_pos
  case behind => exact fun id h ↦ absurd h (hnone id)
  case older => exact fun _ ↦ nofun

/-- Every operation keeps the namespaces apart, and whatever is found under a name or was defined
stays what it is. -/
theorem Operation.isolated (h : m.Operation m') (hm : m.Isolated) :
    m'.Isolated ∧ m.Retains m' := by
  have hclosed' := h.closed hm.closed
  cases h with
  | load lib name id h => exact ⟨(hm.load h).isolated, (hm.load h).retains⟩
  | define lib image id h =>
    obtain ⟨hisolated, hretains, -⟩ := hm.define h
    exact ⟨hisolated, hretains⟩
  | redefine batch ids h => exact (sameNamespaces_redefine h).isolated hm hclosed'
  | allocate =>
    refine SameNamespaces.isolated ?_ hm hclosed'
    exact allocate_cases (P := m.SameNamespaces) (.refl m)
      (sameNamespaces_of_classes_eq rfl rfl rfl rfl)
  | setStatic id field v =>
    refine SameNamespaces.isolated ?_ hm hclosed'
    exact setStatic_cases (P := m.SameNamespaces) (.refl m)
      fun _ ↦ sameNamespaces_modifyClass rfl rfl rfl (.refl _)
  | setField id field v =>
    refine SameNamespaces.isolated ?_ hm hclosed'
    exact setField_cases (P := m.SameNamespaces) (.refl m)
      fun _ ↦ sameNamespaces_of_classes_eq rfl rfl rfl rfl
  | appendClasspath source =>
    refine SameNamespaces.isolated ?_ hm hclosed'
    exact sameNamespaces_of_classes_eq rfl rfl rfl rfl

theorem Operates.isolated (h : m.Operates m') (hm : m.Isolated) :
    m'.Isolated ∧ m.Retains m' := by
  induction h with
  | refl => exact ⟨hm, .refl m⟩
  | tail _ hlast ih =>
    obtain ⟨hisolated, hretains⟩ := hlast.isolated ih.1
    exact ⟨hisolated, ih.2.trans hretains⟩

end Machine

end Hotswap
