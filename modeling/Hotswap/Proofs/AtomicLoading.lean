import Hotswap.Proofs.HierarchyDepth
import Hotswap.Proofs.InPlace

/-!
# Atomic loading

Loading climbs from a class to its superclasses and links on the way back, the uppermost class
first. Every image on the way is found, read and checked while climbing, so that nothing can fail
any more once the first class is linked. As a program that changes the machine in place, loading
therefore adds all the classes of the way or none of them.
-/

namespace Hotswap

namespace Machine

variable {m m₁ m' : Machine} {lib : Library} {name : String} {pending : List String}
  {top : Option ClassId}

/-- A class that cannot be found fails the load. -/
theorem loadWithin_of_findClass_eq_error {e : Error} (hnone : m.findLoaded name = none)
    (hfind : m.findClass lib name = .error e) (levels : Nat) :
    loadWithin lib (levels + 1) m name = .error e := by
  rw [loadWithin]
  simp only [hnone, hfind, bind, Except.bind]

/-! ### Programs on the machine -/

/-- Links a class in the system namespace of a machine in place. -/
def linkInPlace (name : String) (decl : ClassDecl) (ancestors : List ClassId) :
    InPlace Error Machine ClassId :=
  .store fun m ↦ m.linkSystem name decl ancestors

/-- Loads a class by changing the machine in place. -/
def loadInPlace (lib : Library) : Nat → String → InPlace Error Machine ClassId
  | levels, name => do
    match ← .ask fun m ↦ .ok (m.findLoaded name) with
    | some id => pure id
    | none =>
      match levels with
      | 0 => throw (.machine (.linkage name .tooDeep))
      | levels + 1 => do
        let decl ← .ask fun m ↦ m.findClass lib name
        match decl.superName with
        | none => linkInPlace name decl []
        | some superName => do
          let superId ← loadInPlace lib levels superName
          let ancestors ← .ask fun m ↦ .ok (m.chain superId)
          linkInPlace name decl ancestors

/-- Links a class in a namespace of its own, which is given out first. -/
def linkDefined (decl : ClassDecl) (ancestors : List ClassId) : InPlace Error Machine ClassId := do
  let loader ← .store fun m ↦ (m.nextLoader, { m with nextLoader := m.nextLoader + 1 })
  let id ← .store fun m ↦ (m.addClass (.link loader decl ancestors)).swap
  .store fun m ↦ (id, { m with defined := m.defined ++ [id] })

/-- Defines a class by changing the machine in place. -/
def defineInPlace (lib : Library) (image : List UInt8) : InPlace Error Machine ClassId := do
  let decl ← .ask fun m ↦ m.readClass image
  match decl.superName with
  | none => linkDefined decl []
  | some superName => do
    let superId ← loadInPlace lib (maxAncestors + 1) superName
    let ancestors ← .ask fun m ↦ .ok (m.chain superId)
    linkDefined decl ancestors

/-- Loading in place comes to the same as loading, whatever it fails with: the one change at each
level is its last step. -/
theorem exec_loadInPlace (lib : Library) (levels : Nat) (m : Machine) (name : String) :
    (loadInPlace lib levels name).exec m = InPlace.settle m (loadWithin lib levels m name) := by
  induction levels generalizing m name with
  | zero =>
    rw [loadInPlace, InPlace.exec_ask_bind]
    cases hfound : m.findLoaded name with
    | some id => rw [loadWithin_of_findLoaded hfound]; rfl
    | none => rw [loadWithin_zero hfound]; rfl
  | succ levels ih =>
    rw [loadInPlace, InPlace.exec_ask_bind]
    cases hfound : m.findLoaded name with
    | some id => rw [loadWithin_of_findLoaded hfound]; rfl
    | none =>
      simp only [InPlace.exec_ask_bind]
      cases hfind : m.findClass lib name with
      | error e => rw [loadWithin_of_findClass_eq_error hfound hfind]; rfl
      | ok decl =>
        cases hsuper : decl.superName with
        | none =>
          rw [loadWithin_root hfound hfind hsuper]
          simp only [hsuper]
          rfl
        | some superName =>
          simp only [hsuper]
          rw [loadWithin_step hfound hfind hsuper, InPlace.exec_bind, ih]
          cases loadWithin lib levels m superName <;> rfl

/-- Defining in place comes to the same as defining. -/
theorem exec_defineInPlace (lib : Library) (m : Machine) (image : List UInt8) :
    (defineInPlace lib image).exec m = InPlace.settle m (m.define lib image) := by
  rw [defineInPlace, define, InPlace.exec_ask_bind]
  cases m.readClass image with
  | error e => rfl
  | ok decl =>
    obtain ⟨flags, name, superName, fields, methods⟩ := decl
    cases superName with
    | none => rfl
    | some superName =>
      simp only [InPlace.exec_bind, exec_loadInPlace]
      simp only [bind, Except.bind, load]
      cases loadWithin lib (maxAncestors + 1) m superName <;> rfl

/-! ### Loads that fail -/

/-- From a name upwards there are these classes, none of them loaded yet and each of them found on
the classpath, and then comes another name. -/
inductive Passes (m : Machine) (lib : Library) : String → List String → String → Prop where
  | refl (name : String) : Passes m lib name [] name
  | step {name superName other : String} {decl : ClassDecl} {below : List String} :
    m.findLoaded name = none → m.findClass lib name = .ok decl →
    decl.superName = some superName → Passes m lib superName below other →
    Passes m lib name (name :: below) other

variable {below : List String} {other : String}

theorem Passes.trans {last : String} {rest : List String} (h : m.Passes lib name below other)
    (h' : m.Passes lib other rest last) : m.Passes lib name (below ++ rest) last := by
  induction h with
  | refl name => exact h'
  | step hnone hfind hsuper _ ih => exact .step hnone hfind hsuper (ih h')

/-- The way up can be left at each class on it. -/
theorem Passes.take {above : List String} {mid : String}
    (h : m.Passes lib name (below ++ mid :: above) other) :
    m.Passes lib name below mid ∧ m.findLoaded mid = none := by
  induction below generalizing name with
  | nil =>
    cases h with
    | step hnone => exact ⟨.refl _, hnone⟩
  | cons first below ih =>
    cases h with
    | step hnone hfind hsuper h =>
      obtain ⟨hbelow, hmid⟩ := ih h
      exact ⟨.step hnone hfind hsuper hbelow, hmid⟩

/-- Why a load with so many levels stops at a name that is not loaded. -/
inductive StopsAt (m : Machine) (lib : Library) (other : String) : Nat → Error → Prop where
  | tooDeep : StopsAt m lib other 0 (.machine (.linkage other .tooDeep))
  | unfound {e : Error} (levels : Nat) : m.findClass lib other = .error e →
    StopsAt m lib other (levels + 1) e

/-- A load fails just if the way up comes to a name that is not loaded and cannot be found, or for
which no level is left. -/
theorem loadWithin_eq_error_iff {levels : Nat} {e : Error} :
    loadWithin lib levels m name = .error e ↔
      ∃ below other left, m.Passes lib name below other ∧ m.findLoaded other = none ∧
        levels = below.length + left ∧ m.StopsAt lib other left e := by
  constructor
  · intro h
    induction levels generalizing name with
    | zero =>
      cases hfound : m.findLoaded name with
      | some id =>
        rw [loadWithin_of_findLoaded hfound] at h
        cases h
      | none =>
        rw [loadWithin_zero hfound] at h
        cases h
        exact ⟨[], name, 0, .refl name, hfound, rfl, .tooDeep⟩
    | succ levels ih =>
      cases hfound : m.findLoaded name with
      | some id =>
        rw [loadWithin_of_findLoaded hfound] at h
        cases h
      | none =>
        cases hfind : m.findClass lib name with
        | error d =>
          rw [loadWithin_of_findClass_eq_error hfound hfind] at h
          cases h
          exact ⟨[], name, levels + 1, .refl name, hfound, by simp, .unfound levels hfind⟩
        | ok decl =>
          cases hsuper : decl.superName with
          | none =>
            rw [loadWithin_root hfound hfind hsuper] at h
            cases h
          | some superName =>
            rw [loadWithin_step hfound hfind hsuper, bind_eq_error] at h
            rcases h with h | ⟨r, -, h⟩
            · obtain ⟨below, other, left, hpasses, hother, rfl, hstops⟩ := ih h
              refine ⟨name :: below, other, left, .step hfound hfind hsuper hpasses, hother, ?_,
                hstops⟩
              rw [List.length_cons]
              omega
            · cases h
  · rintro ⟨below, other, left, hpasses, hother, rfl, hstops⟩
    induction hpasses with
    | refl name =>
      rw [List.length_nil, Nat.zero_add]
      cases hstops with
      | tooDeep => exact loadWithin_zero hother
      | unfound levels hfind => exact loadWithin_of_findClass_eq_error hother hfind levels
    | @step name superName other decl below hnone hfind hsuper _ ih =>
      rw [List.length_cons, Nat.add_right_comm, loadWithin_step hnone hfind hsuper,
        ih hother hstops]
      rfl

/-- A way up that comes back to a name never ends, and the load fails for its length. -/
theorem Passes.load_circular {cycle : List String} (h : m.Passes lib name below other)
    (hcycle : m.Passes lib other cycle other) (hne : cycle ≠ []) :
    ∃ last, m.load lib name = .error (.machine (.linkage last .tooDeep)) := by
  -- Going round often enough makes the way longer than a load climbs.
  have hlong : ∀ n, ∃ longer, m.Passes lib name longer other ∧ n ≤ longer.length := by
    intro n
    induction n with
    | zero => exact ⟨below, h, Nat.zero_le _⟩
    | succ n ih =>
      obtain ⟨longer, hlonger, hle⟩ := ih
      refine ⟨longer ++ cycle, hlonger.trans hcycle, ?_⟩
      rw [List.length_append]
      exact Nat.add_le_add hle (List.length_pos_iff.mpr hne)
  obtain ⟨longer, hlonger, hle⟩ := hlong (maxAncestors + 2)
  have hlt : maxAncestors + 1 < longer.length := hle
  have hsplit : longer = longer.take (maxAncestors + 1) ++
      longer[maxAncestors + 1] :: longer.drop (maxAncestors + 2) := by
    rw [List.cons_getElem_drop_succ, List.take_append_drop]
  rw [hsplit] at hlonger
  obtain ⟨hpasses, hnone⟩ := hlonger.take
  refine ⟨longer[maxAncestors + 1], loadWithin_eq_error_iff.mpr
    ⟨_, _, 0, hpasses, hnone, ?_, .tooDeep⟩⟩
  rw [List.length_take, Nat.min_eq_left (Nat.le_of_lt hlt), Nat.add_zero]

/-! ### Loads that succeed -/

/-- The system namespace of a machine got the classes of some names that were not loaded, each from
the classpath and behind the class that its superclass is loaded as. The classes that were there
are as they were. -/
structure Adds (lib : Library) (m : Machine) (names : List String) (m' : Machine) : Prop where
  old : ∀ id, m.Has id → m'.Has id ∧ m'.cls id = m.cls id
  kept : ∀ other, other ∉ names → m'.findLoaded other = m.findLoaded other
  linked : ∀ other ∈ names, m.findLoaded other = none ∧ ∃ id decl ancestors,
    m'.findLoaded other = some id ∧ ¬ m.Has id ∧ m.findClass lib other = .ok decl ∧
    m'.cls id = .link 0 decl ancestors ∧ m'.Behind decl.superName ancestors
  classes : m'.classes.size = m.classes.size + names.length
  system : m'.system.size = m.system.size + names.length
  rest : m' = { m with classes := m'.classes, system := m'.system }

theorem adds_nil (m : Machine) : Adds lib m [] m :=
  ⟨fun _ hid ↦ ⟨hid, rfl⟩, fun _ _ ↦ rfl, nofun, rfl, rfl, rfl⟩

/-- One class more is linked, behind classes that are there. -/
theorem Adds.linkSystem {decl : ClassDecl} {ancestors : List ClassId}
    (h : Adds lib m pending m₁) (hm₁ : m₁.Closed) (hnone : m.findLoaded name = none)
    (hname : name ∉ pending) (hfind : m.findClass lib name = .ok decl)
    (hbehind : m₁.Behind decl.superName ancestors) :
    Adds lib m (name :: pending) (m₁.linkSystem name decl ancestors).2 := by
  have hnone₁ : m₁.findLoaded name = none := (h.kept name hname).trans hnone
  have hlinked : m₁.Linked (.link 0 decl ancestors) (m₁.linkSystem name decl ancestors).2 :=
    linked_of_classes_eq rfl
  have hfound := m₁.findLoaded_linkSystem name decl ancestors
  have hkept : ∀ other id, m₁.findLoaded other = some id →
      (m₁.linkSystem name decl ancestors).2.findLoaded other = some id := by
    intro other id hid
    rw [hfound, if_neg, hid]
    rintro rfl
    rw [hnone₁] at hid
    cases hid
  have hretains : m₁.Retains (m₁.linkSystem name decl ancestors).2 :=
    hlinked.retains hkept fun _ hid ↦ hid
  refine ⟨fun id hid ↦ ?_, fun other hother ↦ ?_, fun other hother ↦ ?_, ?_, ?_, ?_⟩
  · obtain ⟨hid₁, hcls⟩ := h.old id hid
    exact ⟨hretains.has id hid₁, (hlinked.old id hid₁).trans hcls⟩
  · rw [List.mem_cons, not_or] at hother
    rw [hfound, if_neg (Ne.symm hother.1), h.kept other hother.2]
  · rcases List.mem_cons.mp hother with rfl | hother
    · refine ⟨hnone, ⟨m₁.classes.size⟩, decl, ancestors, (hfound _).trans (if_pos rfl), ?_, hfind,
        hlinked.new, hretains.behind hm₁ hbehind⟩
      exact fun hid ↦ m₁.not_has_size (h.old _ hid).1
    · obtain ⟨hold, id, decl', ancestors', hid, hnew, hfind', hcls, hbehind'⟩ :=
        h.linked other hother
      refine ⟨hold, id, decl', ancestors', hkept other id hid, hnew, hfind', ?_,
        hretains.behind hm₁ hbehind'⟩
      rw [hlinked.old id (hm₁.system other id hid), hcls]
  · show (m₁.classes.push _).size = _
    rw [Array.size_push, h.classes, List.length_cons]
    omega
  · show (m₁.system.put _ _).size = _
    rw [Table.size_put_of_get?_eq_none hnone₁, h.system, List.length_cons]
    omega
  · show { m₁ with classes := _, system := _ } = _
    rw [h.rest]
    rfl

/-- A load that succeeds adds the classes that were not loaded, and they are all that it adds. -/
theorem Climbs.adds {levels : Nat} {id : ClassId} (h : m.Climbs lib name pending top)
    (hm : m.Closed) (hload : Machine.loadWithin lib levels m name = .ok (id, m')) :
    Adds lib m pending m' ∧ m'.findLoaded name = some id := by
  have hnodup := h.nodup
  induction h generalizing levels id m' with
  | found hfound =>
    rw [loadWithin_of_findLoaded hfound] at hload
    cases hload
    exact ⟨m.adds_nil, hfound⟩
  | @root name decl hnone hfind hsuper =>
    cases levels with
    | zero =>
      rw [loadWithin_zero hnone] at hload
      cases hload
    | succ levels =>
      rw [loadWithin_root hnone hfind hsuper] at hload
      cases hload
      refine ⟨m.adds_nil.linkSystem hm hnone (List.not_mem_nil) hfind ?_,
        (m.findLoaded_linkSystem name decl [] name).trans (if_pos rfl)⟩
      rw [hsuper]
      rfl
  | @step name superName decl pending top hnone hfind hsuper _ ih =>
    cases levels with
    | zero =>
      rw [loadWithin_zero hnone] at hload
      cases hload
    | succ levels =>
      rw [loadWithin_step hnone hfind hsuper] at hload
      obtain ⟨⟨superId, m₁⟩, hload₁, hlink⟩ := bind_eq_ok.mp hload
      cases hlink
      obtain ⟨hname, hnodup⟩ := List.nodup_cons.mp hnodup
      obtain ⟨hadds, hfound⟩ := ih hload₁ hnodup
      have hclosed := (hm.loadWithin hload₁).1.closed hm
      refine ⟨hadds.linkSystem hclosed hnone hname hfind ?_,
        (m₁.findLoaded_linkSystem name decl _ name).trans (if_pos rfl)⟩
      rw [hsuper]
      exact ⟨superId, hfound, rfl⟩

/-- The way up from the superclass of a class, if it has one. -/
def ClimbsAbove (m : Machine) (lib : Library) : Option String → List String → Prop
  | none, pending => pending = []
  | some superName, pending => ∃ top, m.Climbs lib superName pending top

theorem Adds.defined_eq (h : Adds lib m pending m') : m'.defined = m.defined := by
  rw [h.rest]

theorem Adds.nextLoader_eq (h : Adds lib m pending m') : m'.nextLoader = m.nextLoader := by
  rw [h.rest]

/-- The superclass of a class that gets linked is loaded as a whole. -/
theorem Ancestry.adds {superName : Option String} {ancestors : List ClassId} (hm : m.Closed)
    (h : Ancestry (Machine.load · lib) m superName ancestors m') :
    ∃ pending, m.ClimbsAbove lib superName pending ∧ Adds lib m pending m' ∧
      m'.Behind superName ancestors := by
  cases superName with
  | none =>
    obtain ⟨rfl, rfl⟩ := h
    exact ⟨[], rfl, adds_nil _, rfl⟩
  | some superName =>
    obtain ⟨superId, hload, rfl⟩ := h
    obtain ⟨pending, top, hclimbs, -⟩ := exists_climbs_of_loadWithin hload
    obtain ⟨hadds, hfound⟩ := hclimbs.adds hm hload
    exact ⟨pending, ⟨top, hclimbs⟩, hadds, superId, hfound, rfl⟩

/-- Loading a class is all or nothing. A load that fails leaves the machine as it was, whatever it
fails with: with what is wrong with the first name on the way up that cannot be found, or for the
length of the way, which a circular one always exceeds. A load that succeeds adds the classes on the
way that were not loaded. -/
structure LoadsWhole (m : Machine) (lib : Library) (name : String) : Prop where
  fails : ∀ e m', (loadInPlace lib (maxAncestors + 1) name).exec m = (.error e, m') ↔
    m' = m ∧ m.load lib name = .error e
  reason : ∀ e, m.load lib name = .error e ↔
    ∃ below other left, m.Passes lib name below other ∧ m.findLoaded other = none ∧
      maxAncestors + 1 = below.length + left ∧ m.StopsAt lib other left e
  circular : ∀ below other cycle, m.Passes lib name below other → m.Passes lib other cycle other →
    cycle ≠ [] → ∃ last, m.load lib name = .error (.machine (.linkage last .tooDeep))
  succeeds : ∀ id m', (loadInPlace lib (maxAncestors + 1) name).exec m = (.ok id, m') ↔
    m.load lib name = .ok (id, m')
  added : ∀ id m', m.load lib name = .ok (id, m') → ∃ pending top,
    m.Climbs lib name pending top ∧ Adds lib m pending m' ∧ m'.findLoaded name = some id ∧
    m'.classCount = m.classCount + pending.length

/-- Defining a class is all or nothing. A definition that fails leaves the machine as it was: it
fails with the image or as the load of the superclass does. One that succeeds adds what that load
adds, and one class in a namespace of its own. -/
structure DefinesWhole (m : Machine) (lib : Library) (image : List UInt8) : Prop where
  fails : ∀ e m', (defineInPlace lib image).exec m = (.error e, m') ↔
    m' = m ∧ m.define lib image = .error e
  reason : ∀ e, m.define lib image = .error e ↔ m.readClass image = .error e ∨
    ∃ decl superName, m.readClass image = .ok decl ∧ decl.superName = some superName ∧
      m.load lib superName = .error e
  succeeds : ∀ id m', (defineInPlace lib image).exec m = (.ok id, m') ↔
    m.define lib image = .ok (id, m')
  added : ∀ id m', m.define lib image = .ok (id, m') → ∃ decl pending ancestors m₁,
    m.readClass image = .ok decl ∧ m.ClimbsAbove lib decl.superName pending ∧
    Adds lib m pending m₁ ∧ id = ⟨m₁.classes.size⟩ ∧
    m' = { m₁ with
      classes := m₁.classes.push (.link m.nextLoader decl ancestors)
      defined := m.defined ++ [id]
      nextLoader := m.nextLoader + 1 } ∧
    m'.Behind decl.superName ancestors ∧ m'.classCount = m.classCount + pending.length + 1

theorem Closed.loadsWhole (hm : m.Closed) (lib : Library) (name : String) :
    m.LoadsWhole lib name where
  fails e m' := InPlace.exec_eq_error_iff (exec_loadInPlace lib _ m name)
  reason e := loadWithin_eq_error_iff
  circular below other cycle h hcycle hne := h.load_circular hcycle hne
  succeeds id m' := InPlace.exec_eq_ok_iff (exec_loadInPlace lib _ m name)
  added id m' hload := by
    obtain ⟨pending, top, hclimbs, -⟩ := exists_climbs_of_loadWithin hload
    obtain ⟨hadds, hfound⟩ := hclimbs.adds hm hload
    refine ⟨pending, top, hclimbs, hadds, hfound, ?_⟩
    rw [classCount, classCount, hadds.system, hadds.defined_eq]
    omega

theorem define_eq_error_iff {image : List UInt8} {e : Error} :
    m.define lib image = .error e ↔ m.readClass image = .error e ∨
      ∃ decl superName, m.readClass image = .ok decl ∧ decl.superName = some superName ∧
        m.load lib superName = .error e := by
  rw [define, bind_eq_error]
  refine or_congr_right ⟨?_, ?_⟩
  · rintro ⟨decl, hread, h⟩
    cases hsuper : decl.superName with
    | none =>
      simp only [hsuper] at h
      cases h
    | some superName =>
      simp only [hsuper, bind_eq_error] at h
      rcases h with h | ⟨r, -, h | ⟨r', -, h⟩⟩
      · exact ⟨decl, superName, hread, hsuper, h⟩
      · cases h
      · cases h
  · rintro ⟨decl, superName, hread, hsuper, h⟩
    refine ⟨decl, hread, ?_⟩
    simp only [hsuper, h]
    rfl

theorem Closed.definesWhole (hm : m.Closed) (lib : Library) (image : List UInt8) :
    m.DefinesWhole lib image where
  fails e m' := InPlace.exec_eq_error_iff (exec_defineInPlace lib m image)
  reason e := define_eq_error_iff
  succeeds id m' := InPlace.exec_eq_ok_iff (exec_defineInPlace lib m image)
  added id m' hdefine := by
    obtain ⟨decl, ancestors, m₁, hread, hsuper, rfl, hm'⟩ := define_eq_ok hdefine
    obtain ⟨pending, hclimbs, hadds, hbehind⟩ := Ancestry.adds hm hsuper
    have hclosed₁ := (hm.ancestry (fun _ _ _ hload ↦ hm.load hload) hsuper).1.closed hm
    have hlinked : m₁.Linked (.link m₁.nextLoader decl ancestors) m' :=
      linked_of_classes_eq (by rw [hm'])
    have hretains : m₁.Retains m' := by
      refine hlinked.retains (fun other id hid ↦ ?_) fun id hid ↦ ?_
      · rw [hm']
        exact hid
      · rw [hm']
        exact List.mem_append_left _ hid
    refine ⟨decl, pending, ancestors, m₁, hread, hclimbs, hadds, rfl, ?_,
      hretains.behind hclosed₁ hbehind, ?_⟩
    · rw [hm', hadds.defined_eq, hadds.nextLoader_eq]
      rfl
    · have hsystem : m'.system = m₁.system := by rw [hm']; rfl
      have hdefined : m'.defined = m₁.defined ++ [⟨m₁.classes.size⟩] := by rw [hm']
      rw [classCount, classCount, hsystem, hdefined, hadds.system, hadds.defined_eq,
        List.length_append, List.length_singleton]
      omega

end Machine

/-- Whatever state a machine is in, loading and defining are all or nothing. -/
theorem World.Arises.atomic_loading {σ : Type} {w : World σ} (hw : w.Arises) (lib : Library) :
    (∀ name, w.machine.LoadsWhole lib name) ∧ ∀ image, w.machine.DefinesWhole lib image :=
  ⟨hw.inStep.closed.loadsWhole lib, hw.inStep.closed.definesWhole lib⟩

/-- Of a tower that is too high nothing is loaded, and of one that is not, all of it. -/
theorem Machine.tower_atomic_loading :
    (⟨.new .standard [0], ()⟩ : World Unit).Arises ∧
      (loadInPlace (towerLibrary 65) (maxAncestors + 1) (towerName 65)).exec (.new .standard [0]) =
        (.error (.machine (.linkage (towerName 0) .tooDeep)), .new .standard [0]) ∧
      ∃ id m', (loadInPlace (towerLibrary 2) (maxAncestors + 1) (towerName 2)).exec
          (.new .standard [0]) = (.ok id, m') ∧
        Adds (towerLibrary 2) (.new .standard [0]) [towerName 2, towerName 1, towerName 0] m' ∧
        m'.classCount = 3 := by
  have hnew : (⟨.new .standard [0], ()⟩ : World Unit).Arises := .new _ _ _
  refine ⟨hnew, ?_, ?_⟩
  · have hwhole := (hnew.atomic_loading (towerLibrary 65)).1 (towerName 65)
    have hclimbs : (new .standard [0]).Climbs (towerLibrary 65) (towerName 65) (towerNames 65)
        none := climbs_tower (by decide) (by decide)
    exact (hwhole.fails _ _).mpr
      ⟨rfl, (hclimbs.loadWithin (maxAncestors + 1)).1 (by simp [maxAncestors])⟩
  · have hwhole := (hnew.atomic_loading (towerLibrary 2)).1 (towerName 2)
    have hclimbs : (new .standard [0]).Climbs (towerLibrary 2) (towerName 2) (towerNames 2)
        none := climbs_tower (by decide) (by decide)
    obtain ⟨id, m', hload, -⟩ :=
      (hclimbs.loadWithin (maxAncestors + 1)).2 (by simp [maxAncestors])
    obtain ⟨pending, top, hpending, hadds, -, hcount⟩ := hwhole.added id m' hload
    obtain ⟨rfl, -⟩ := hpending.eq hclimbs
    exact ⟨id, m', (hwhole.succeeds id m').mpr hload, hadds, hcount⟩

end Hotswap
