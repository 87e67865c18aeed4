import Hotswap.Proofs.Namespaces

/-!
# Depth of hierarchies

How far a load climbs. The limit is on the classes of a chain that are not loaded yet, of which one
call loads `maxAncestors + 1` at most; what lies above them is not counted. So a class whose chain
is loaded in one call has `maxAncestors` superclasses at most, and every call may add as many
classes to a chain as it holds: with one call for each stretch of that length a chain of any length
gets loaded that one call alone would refuse.
-/

namespace Hotswap

namespace Machine

variable {m m' : Machine} {lib : Library} {name : String} {pending : List String}
  {top : Option ClassId}

/-! ### What is not loaded yet -/

/-- From a name upwards, the names of the classes that are not loaded yet and that the classpath
has, and the class behind which they will be linked, if one of the chain is loaded. -/
inductive Climbs (m : Machine) (lib : Library) : String → List String → Option ClassId → Prop where
  | found {name : String} {id : ClassId} : m.findLoaded name = some id →
    Climbs m lib name [] (some id)
  | root {name : String} {decl : ClassDecl} : m.findLoaded name = none →
    m.findClass lib name = .ok decl → decl.superName = none → Climbs m lib name [name] none
  | step {name superName : String} {decl : ClassDecl} {pending : List String}
    {top : Option ClassId} : m.findLoaded name = none → m.findClass lib name = .ok decl →
    decl.superName = some superName → Climbs m lib superName pending top →
    Climbs m lib name (name :: pending) top

/-- The number of classes in the chain of a class, if there is one. -/
def height (m : Machine) : Option ClassId → Nat
  | none => 0
  | some id => (m.chain id).length

/-- There is one way up from a name. -/
theorem Climbs.eq {pending' : List String} {top' : Option ClassId}
    (h : m.Climbs lib name pending top) (h' : m.Climbs lib name pending' top') :
    pending = pending' ∧ top = top' := by
  induction h generalizing pending' top' with
  | found hfound =>
    cases h' with
    | found hfound' => exact ⟨rfl, hfound.symm.trans hfound'⟩
    | root hnone | step hnone =>
      rw [hfound] at hnone
      cases hnone
  | root hnone hfind hsuper =>
    cases h' with
    | found hfound =>
      rw [hnone] at hfound
      cases hfound
    | root => exact ⟨rfl, rfl⟩
    | step _ hfind' hsuper' =>
      rw [← Except.ok.inj (hfind.symm.trans hfind'), hsuper] at hsuper'
      cases hsuper'
  | step hnone hfind hsuper _ ih =>
    cases h' with
    | found hfound =>
      rw [hnone] at hfound
      cases hfound
    | root _ hfind' hsuper' =>
      rw [← Except.ok.inj (hfind.symm.trans hfind'), hsuper] at hsuper'
      cases hsuper'
    | step _ hfind' hsuper' hclimbs =>
      rw [← Except.ok.inj (hfind.symm.trans hfind'), hsuper] at hsuper'
      cases hsuper'
      obtain ⟨rfl, rfl⟩ := ih hclimbs
      exact ⟨rfl, rfl⟩

/-- Nothing that is pending is found. -/
theorem Climbs.findLoaded_eq_none (h : m.Climbs lib name pending top) :
    ∀ other ∈ pending, m.findLoaded other = none := by
  induction h with
  | found => exact nofun
  | root hnone => exact List.forall_mem_singleton.mpr hnone
  | step hnone _ _ _ ih => exact List.forall_mem_cons.mpr ⟨hnone, ih⟩

/-- The way up from a name on the way is the rest of the way. -/
theorem Climbs.drop {front back : List String} {other : String}
    (h : m.Climbs lib name (front ++ other :: back) top) :
    m.Climbs lib other (other :: back) top := by
  induction front generalizing name with
  | nil =>
    cases h with
    | root hnone hfind hsuper => exact .root hnone hfind hsuper
    | step hnone hfind hsuper hclimbs => exact .step hnone hfind hsuper hclimbs
  | cons first front ih =>
    rw [List.cons_append] at h
    generalize hrest : front ++ other :: back = rest at h
    cases h with
    | root => cases front <;> cases hrest
    | step _ _ _ hclimbs => exact ih (hrest ▸ hclimbs)

/-- No name is met twice on the way up. -/
theorem Climbs.nodup (h : m.Climbs lib name pending top) : pending.Nodup := by
  induction h with
  | found => exact .nil
  | root => exact List.nodup_singleton _
  | step hnone hfind hsuper hclimbs ih =>
    refine List.nodup_cons.mpr ⟨fun hmem ↦ ?_, ih⟩
    -- From the name met again the way would be shorter than from the name.
    obtain ⟨front, back, rfl⟩ := List.append_of_mem hmem
    have hagain := (Climbs.step hnone hfind hsuper hclimbs).eq hclimbs.drop
    have hlength := congrArg List.length hagain.1
    simp only [List.length_cons, List.length_append] at hlength
    omega

/-! ### One load -/

theorem findClass_congr (hconfig : m'.config = m.config) (hclasspath : m'.classpath = m.classpath)
    (lib : Library) (name : String) : m'.findClass lib name = m.findClass lib name := by
  simp only [findClass, readClass, hconfig, hclasspath]

/-- Links a class in the system namespace. -/
def linkSystem (m : Machine) (name : String) (decl : ClassDecl) (ancestors : List ClassId) :
    ClassId × Machine :=
  (⟨m.classes.size⟩, { (m.addClass (.link 0 decl ancestors)).1 with
    system := m.system.put name ⟨m.classes.size⟩ })

theorem chain_linkSystem (m : Machine) (name : String) (decl : ClassDecl)
    (ancestors : List ClassId) :
    (m.linkSystem name decl ancestors).2.chain (m.linkSystem name decl ancestors).1 =
      ⟨m.classes.size⟩ :: ancestors := by
  have hlinked : m.Linked (.link 0 decl ancestors) (m.linkSystem name decl ancestors).2 :=
    linked_of_classes_eq rfl
  rw [chain]
  exact congrArg (fun c ↦ ⟨m.classes.size⟩ :: LiveClass.ancestors c) hlinked.new

theorem findLoaded_linkSystem (m : Machine) (name : String) (decl : ClassDecl)
    (ancestors : List ClassId) (other : String) :
    (m.linkSystem name decl ancestors).2.findLoaded other =
      if name = other then some ⟨m.classes.size⟩ else m.findLoaded other :=
  Table.get?_put ..

theorem loadWithin_zero (hnone : m.findLoaded name = none) :
    loadWithin lib 0 m name = .error (.machine (.linkage name .tooDeep)) := by
  unfold loadWithin
  simp only [hnone]

theorem loadWithin_root {decl : ClassDecl} (hnone : m.findLoaded name = none)
    (hfind : m.findClass lib name = .ok decl) (hsuper : decl.superName = none) (levels : Nat) :
    loadWithin lib (levels + 1) m name = .ok (m.linkSystem name decl []) := by
  rw [loadWithin]
  simp only [hnone, hfind, bind, Except.bind, hsuper]
  rfl

theorem loadWithin_step {decl : ClassDecl} {superName : String}
    (hnone : m.findLoaded name = none) (hfind : m.findClass lib name = .ok decl)
    (hsuper : decl.superName = some superName) (levels : Nat) :
    loadWithin lib (levels + 1) m name =
      loadWithin lib levels m superName >>= fun r ↦
        .ok (r.2.linkSystem name decl (r.2.chain r.1)) := by
  rw [loadWithin]
  simp only [hnone, hfind, bind, Except.bind, hsuper]
  rfl

/-- What loading leaves behind that climbs to the end: the ancestors of a class to come are what was
pending on top of what was there, and nothing but what was pending is found that was not. -/
structure Reaches (m : Machine) (pending : List String) (top : Option ClassId)
    (ancestors : List ClassId) (m' : Machine) : Prop where
  height : ancestors.length = pending.length + m.height top
  fresh : ∀ other c, m'.findLoaded other = some c → m.findLoaded other = some c ∨ other ∈ pending
  config : m'.config = m.config
  classpath : m'.classpath = m.classpath

theorem reaches_refl (m : Machine) (top : Option ClassId) {ancestors : List ClassId}
    (h : ancestors.length = m.height top) : m.Reaches [] top ancestors m :=
  ⟨h.trans (Nat.zero_add _).symm, fun _ _ ↦ .inl, rfl, rfl⟩

theorem Reaches.linkSystem {m₁ : Machine} {ancestors : List ClassId}
    (h : m.Reaches pending top ancestors m₁) (name : String) (decl : ClassDecl) :
    m.Reaches (name :: pending) top
      ((m₁.linkSystem name decl ancestors).2.chain (m₁.linkSystem name decl ancestors).1)
      (m₁.linkSystem name decl ancestors).2 where
  height := by
    rw [chain_linkSystem, List.length_cons, List.length_cons, h.height]
    omega
  fresh other c hc := by
    rw [findLoaded_linkSystem] at hc
    split at hc
    · next hname => exact .inr (hname ▸ .head _)
    · rcases h.fresh other c hc with hold | hmem
      · exact .inl hold
      · exact .inr (.tail _ hmem)
  config := h.config
  classpath := h.classpath

/-- A load succeeds if it has a level for each class that is pending, and else fails with the first
for which none is left. -/
theorem Climbs.loadWithin (h : m.Climbs lib name pending top) (levels : Nat) :
    (∀ hlt : levels < pending.length, loadWithin lib levels m name =
      .error (.machine (.linkage pending[levels] .tooDeep))) ∧
    (pending.length ≤ levels → ∃ id m', loadWithin lib levels m name = .ok (id, m') ∧
      m'.findLoaded name = some id ∧ m.Reaches pending top (m'.chain id) m') := by
  induction h generalizing levels with
  | @found name id hfound =>
    exact ⟨nofun, fun _ ↦ ⟨id, m, loadWithin_of_findLoaded hfound lib levels, hfound,
      m.reaches_refl (some id) rfl⟩⟩
  | @root name decl hnone hfind hsuper =>
    cases levels with
    | zero => exact ⟨fun _ ↦ loadWithin_zero hnone, nofun⟩
    | succ levels =>
      refine ⟨fun hlt ↦ absurd hlt (by simp), fun _ ↦ ?_⟩
      exact ⟨_, _, loadWithin_root hnone hfind hsuper levels,
        (m.findLoaded_linkSystem name decl [] name).trans (if_pos rfl),
        (m.reaches_refl none rfl).linkSystem name decl⟩
  | @step name superName decl pending top hnone hfind hsuper _ ih =>
    cases levels with
    | zero => exact ⟨fun _ ↦ loadWithin_zero hnone, nofun⟩
    | succ levels =>
      obtain ⟨hrefused, hloaded⟩ := ih levels
      rw [loadWithin_step hnone hfind hsuper]
      refine ⟨fun hlt ↦ ?_, fun hle ↦ ?_⟩
      · rw [hrefused (Nat.lt_of_succ_lt_succ hlt)]
        rfl
      · obtain ⟨id, m₁, hload, -, hreaches⟩ := hloaded (Nat.le_of_succ_le_succ hle)
        exact ⟨_, _, by rw [hload]; rfl,
          (m₁.findLoaded_linkSystem name decl _ name).trans (if_pos rfl),
          hreaches.linkSystem name decl⟩

/-- A load that succeeds had a level for each class that was pending. -/
theorem exists_climbs_of_loadWithin {levels : Nat} {id : ClassId}
    (h : Machine.loadWithin lib levels m name = .ok (id, m')) :
    ∃ pending top, m.Climbs lib name pending top ∧ pending.length ≤ levels := by
  induction levels generalizing m' name id with
  | zero =>
    rcases loadWithin_eq_ok h with ⟨hfound, -⟩ | ⟨below, decl, ancestors, m₁, hlevels, -⟩
    · exact ⟨[], some id, .found hfound, Nat.le_refl _⟩
    · cases hlevels
  | succ levels ih =>
    rcases loadWithin_eq_ok h with
      ⟨hfound, -⟩ | ⟨below, decl, ancestors, m₁, hlevels, hnone, hfind, hsuper, -, -⟩
    · exact ⟨[], some id, .found hfound, Nat.zero_le _⟩
    · cases hlevels
      cases hname : decl.superName with
      | none => exact ⟨[name], none, .root hnone hfind hname, by simp⟩
      | some superName =>
        rw [hname] at hsuper
        obtain ⟨superId, hload, -⟩ := hsuper
        obtain ⟨pending, top, hclimbs, hle⟩ := ih hload
        exact ⟨name :: pending, top, .step hnone hfind hname hclimbs, Nat.succ_le_succ hle⟩

/-- A class with a superclass is defined if the superclass can be loaded, and else fails as that
does; its ancestors are the chain of the superclass. -/
theorem Climbs.define {image : List UInt8} {decl : ClassDecl} {superName : String}
    (h : m.Climbs lib superName pending top) (hread : m.readClass image = .ok decl)
    (hsuper : decl.superName = some superName) :
    (∀ hlt : maxAncestors + 1 < pending.length, m.define lib image =
      .error (.machine (.linkage pending[maxAncestors + 1] .tooDeep))) ∧
    (pending.length ≤ maxAncestors + 1 → ∃ id m', m.define lib image = .ok (id, m') ∧
      (m'.cls id).ancestors.length = pending.length + m.height top) := by
  obtain ⟨hrefused, hloaded⟩ := h.loadWithin (maxAncestors + 1)
  refine ⟨fun hlt ↦ ?_, fun hle ↦ ?_⟩
  · have hload : m.load lib superName = _ := hrefused hlt
    simp only [Machine.define, hread, hload, bind, Except.bind, hsuper]
  · obtain ⟨superId, m₁, hload, -, hreaches⟩ := hloaded hle
    have hload : m.load lib superName = _ := hload
    have hdefine : m.define lib image = .ok (⟨m₁.classes.size⟩,
        { (m₁.addClass (.link m₁.nextLoader decl (m₁.chain superId))).1 with
          defined := m₁.defined ++ [⟨m₁.classes.size⟩], nextLoader := m₁.nextLoader + 1 }) := by
      simp only [Machine.define, hread, hload, bind, Except.bind, hsuper]
      rfl
    have hlinked : m₁.Linked (.link m₁.nextLoader decl (m₁.chain superId)) _ :=
      linked_of_classes_eq rfl
    exact ⟨_, _, hdefine,
      (congrArg (fun c ↦ (LiveClass.ancestors c).length) hlinked.new).trans hreaches.height⟩

/-! ### One load after the other -/

/-- So many loads succeeded one after the other. -/
inductive LoadsInTurn (lib : Library) : Nat → Machine → Machine → Prop where
  | refl (m : Machine) : LoadsInTurn lib 0 m m
  | head {n : Nat} {m m₁ m' : Machine} {name : String} {id : ClassId} :
    m.load lib name = .ok (id, m₁) → LoadsInTurn lib n m₁ m' → LoadsInTurn lib (n + 1) m m'

/-- When a class on the way up gets loaded, what is left to load is the way up to it. -/
theorem Climbs.take {front back : List String} {other : String} {id : ClassId}
    (h : m.Climbs lib name (front ++ other :: back) top)
    (hreaches : m.Reaches (other :: back) top (m'.chain id) m')
    (hfound : m'.findLoaded other = some id) : m'.Climbs lib name front (some id) := by
  have hfind := findClass_congr hreaches.config hreaches.classpath lib
  have hnone : ∀ n ∈ front, m'.findLoaded n = none := by
    intro n hn
    cases hn' : m'.findLoaded n with
    | none => rfl
    | some c =>
      rcases hreaches.fresh n c hn' with hold | hback
      · rw [h.findLoaded_eq_none n (List.mem_append_left _ hn)] at hold
        cases hold
      · exact absurd rfl ((List.nodup_append.mp h.nodup).2.2 n hn n hback)
  clear hreaches
  induction front generalizing name with
  | nil =>
    cases h with
    | root | step => exact .found hfound
  | cons first front ih =>
    obtain ⟨hfirst, hrest⟩ := List.forall_mem_cons.mp hnone
    rw [List.cons_append] at h
    generalize htail : front ++ other :: back = tail at h
    cases h with
    | root => cases front <;> cases htail
    | step _ hdecl hsuper hclimbs =>
      exact .step hfirst ((hfind _).trans hdecl) hsuper (ih (htail ▸ hclimbs) hrest)

/-- However long the way up, the class gets loaded, by one load for each stretch of it that one call
climbs, from above. -/
theorem Climbs.exists_loadsInTurn (h : m.Climbs lib name pending top) :
    ∃ id m', LoadsInTurn lib ((pending.length + maxAncestors) / (maxAncestors + 1)) m m' ∧
      m'.findLoaded name = some id ∧
      (m'.chain id).length = pending.length + m.height top := by
  induction hn : pending.length using Nat.strongRecOn generalizing m pending top with
  | _ n ih =>
    cases n with
    | zero =>
      obtain rfl := List.length_eq_zero_iff.mp hn
      cases h with
      | found hfound => exact ⟨_, m, .refl m, hfound, (Nat.zero_add _).symm⟩
    | succ n =>
      -- The upper end of the way is loaded first: as much as one call climbs, or all of it.
      obtain ⟨front, rest, rfl, hfront, hrest⟩ : ∃ front rest, pending = front ++ rest ∧
          front.length = n + 1 - (maxAncestors + 1) ∧
          rest.length = min (n + 1) (maxAncestors + 1) := by
        refine ⟨pending.take (n + 1 - (maxAncestors + 1)),
          pending.drop (n + 1 - (maxAncestors + 1)), (List.take_append_drop ..).symm, ?_, ?_⟩
        · rw [List.length_take]
          omega
        · rw [List.length_drop]
          omega
      obtain ⟨other, back, rfl⟩ := List.exists_cons_of_length_pos (l := rest) (by omega)
      obtain ⟨id₁, m₁, hload, hfound, hreaches⟩ :=
        (h.drop.loadWithin (maxAncestors + 1)).2 (by omega)
      obtain ⟨id, m', hloads, hname, hheight⟩ :=
        ih front.length (by omega) (h.take hreaches hfound) rfl
      refine ⟨id, m', ?_, hname, ?_⟩
      · have hcount : (n + 1 + maxAncestors) / (maxAncestors + 1) =
            (front.length + maxAncestors) / (maxAncestors + 1) + 1 := by
          simp only [maxAncestors] at hfront ⊢
          omega
        rw [hcount]
        exact .head hload hloads
      · rw [hheight, height, hreaches.height]
        simp only [List.length_append] at hn
        omega

/-! ### Any number of calls -/

/-- So many calls that loaded or defined a class led to a machine. A call that fails changes
nothing. -/
inductive Calls : Nat → Machine → Prop where
  | new (config : Config) (classpath : Classpath) : Calls 0 (.new config classpath)
  | load {n : Nat} {m m' : Machine} (lib : Library) (name : String) (id : ClassId) : Calls n m →
    m.load lib name = .ok (id, m') → Calls (n + 1) m'
  | define {n : Nat} {m m' : Machine} (lib : Library) (image : List UInt8) (id : ClassId) :
    Calls n m → m.define lib image = .ok (id, m') → Calls (n + 1) m'

theorem Calls.isolated {n : Nat} (h : Calls n m) : m.Isolated := by
  induction h with
  | new config classpath => exact isolated_new config classpath
  | load lib name id _ h ih => exact (ih.load h).isolated
  | define lib image id _ h ih => exact (ih.define h).1

/-- The chains of the system namespace have so many classes at most. -/
def ChainsWithin (m : Machine) (bound : Nat) : Prop :=
  ∀ name id, m.findLoaded name = some id → (m.chain id).length ≤ bound

theorem ChainsWithin.height_le {bound : Nat} (h : m.ChainsWithin bound)
    (hclimbs : m.Climbs lib name pending top) : m.height top ≤ bound := by
  induction hclimbs with
  | found hfound => exact h _ _ hfound
  | root => exact Nat.zero_le _
  | step _ _ _ _ ih => exact ih

/-- The chain of a class that stays is as long as it was. -/
theorem Retains.length_chain (h : m.Retains m') {id : ClassId} (hid : m.Has id) :
    (m'.chain id).length = (m.chain id).length := by
  rw [chain, chain, h.ancestors id hid]

/-- One load makes chains longer by as many classes at most as it climbs. -/
theorem ChainsWithin.load {bound : Nat} {id : ClassId} (h : m.ChainsWithin bound)
    (hm : m.Isolated) (hload : m.load lib name = .ok (id, m')) :
    m'.ChainsWithin (bound + (maxAncestors + 1)) := by
  intro other c hc
  have hloaded := hm.load hload
  rcases hloaded.fresh other c hc with hold | ⟨hmem, -⟩
  · rw [hloaded.retains.length_chain (hm.closed.system other c hold)]
    exact (h other c hold).trans (Nat.le_add_right _ _)
  · obtain ⟨pending, top, hclimbs, hle⟩ := exists_climbs_of_loadWithin hload
    obtain ⟨id₁, m₁, hload₁, -, hreaches⟩ := (hclimbs.loadWithin (maxAncestors + 1)).2 hle
    cases hload₁.symm.trans hload
    have hsuffix := (hloaded.isolated.chain_suffix hmem).length_le
    have htop := h.height_le hclimbs
    have hheight := hreaches.height
    omega

/-- So does the load of a superclass. -/
theorem ChainsWithin.ancestry {bound : Nat} {superName : Option String}
    {ancestors : List ClassId} (h : m.ChainsWithin bound) (hm : m.Isolated)
    (hsuper : Ancestry (Machine.load · lib) m superName ancestors m') :
    m'.ChainsWithin (bound + (maxAncestors + 1)) ∧
      ancestors.length ≤ bound + (maxAncestors + 1) := by
  cases superName with
  | none =>
    obtain ⟨rfl, rfl⟩ := hsuper
    exact ⟨fun name id hid ↦ (h name id hid).trans (Nat.le_add_right _ _), Nat.zero_le _⟩
  | some superName =>
    obtain ⟨id, hload, rfl⟩ := hsuper
    have hwithin := h.load hm hload
    exact ⟨hwithin, hwithin superName id (hm.load hload).found⟩

/-- Each call makes chains longer by as many classes at most as one load climbs; a class that is
defined stands on top of that. -/
theorem Calls.within {n : Nat} (h : Calls n m) :
    m.ChainsWithin ((maxAncestors + 1) * n) ∧
      ∀ id ∈ m.defined, (m.cls id).ancestors.length ≤ (maxAncestors + 1) * n := by
  induction h with
  | new => exact ⟨fun _ _ ↦ nofun, nofun⟩
  | load lib name id hcalls hload ih =>
    have hm := hcalls.isolated
    have hloaded := hm.load hload
    refine ⟨ih.1.load hm hload, fun c hc ↦ ?_⟩
    rw [hloaded.defined] at hc
    rw [hloaded.retains.ancestors c ((hm.defined c).mp hc).1]
    exact (ih.2 c hc).trans (Nat.le_add_right _ _)
  | @define n m m' lib image id hcalls hdefine ih =>
    have hm := hcalls.isolated
    obtain ⟨decl, ancestors, m₁, hsuper, hclimbed, hlinked, rfl, hsystem, hdefined, -⟩ :=
      hm.exists_climbed_of_define hdefine
    obtain ⟨hchains, hancestors⟩ := ih.1.ancestry hm hsuper
    constructor
    · intro name c hc
      have hc₁ : m₁.findLoaded name = some c := by rwa [findLoaded, hsystem] at hc
      rw [chain, hlinked.old c (hclimbed.isolated.closed.system name c hc₁)]
      exact hchains name c hc₁
    · intro c hc
      rw [hdefined, List.mem_append, List.mem_singleton, hclimbed.defined] at hc
      rcases hc with hc | rfl
      · have hhas := ((hm.defined c).mp hc).1
        rw [hlinked.old c (hclimbed.retains.has c hhas), hclimbed.retains.ancestors c hhas]
        exact (ih.2 c hc).trans (Nat.le_add_right _ _)
      · rw [hlinked.new]
        exact hancestors

/-- How deep hierarchies get by loads and definitions in any order. A load succeeds just if the way
up from the name has `maxAncestors + 1` classes at most that are not loaded yet, and fails otherwise
with the first one beyond them; the class then has what was not loaded and the whole chain above it
for a chain, so that the limit holds if nothing was loaded of it. What one call refuses is loaded
by more calls, one for each `maxAncestors + 1` classes. A definition loads its superclass in this
way and comes on top of it. So the number of calls limits the depth, and nothing else does. -/
theorem Calls.hierarchy_depth {n : Nat} (h : Calls n m) :
    (∀ lib name, (∃ id m', m.load lib name = .ok (id, m')) ↔
      ∃ pending top, m.Climbs lib name pending top ∧ pending.length ≤ maxAncestors + 1) ∧
    (∀ lib name pending top, m.Climbs lib name pending top →
      (∀ hlt : maxAncestors + 1 < pending.length, m.load lib name =
        .error (.machine (.linkage pending[maxAncestors + 1] .tooDeep))) ∧
      (∀ id m', m.load lib name = .ok (id, m') →
        (m'.cls id).ancestors.length + 1 = pending.length + m.height top) ∧
      ∃ id m', LoadsInTurn lib ((pending.length + maxAncestors) / (maxAncestors + 1)) m m' ∧
        m'.findLoaded name = some id ∧
        (m'.cls id).ancestors.length + 1 = pending.length + m.height top) ∧
    (∀ lib image decl superName pending top, m.readClass image = .ok decl →
      decl.superName = some superName → m.Climbs lib superName pending top →
      (∀ hlt : maxAncestors + 1 < pending.length, m.define lib image =
        .error (.machine (.linkage pending[maxAncestors + 1] .tooDeep))) ∧
      (pending.length ≤ maxAncestors + 1 → ∃ id m', m.define lib image = .ok (id, m') ∧
        (m'.cls id).ancestors.length = pending.length + m.height top)) ∧
    (∀ name id, m.findLoaded name = some id →
      (m.cls id).ancestors.length < (maxAncestors + 1) * n) ∧
    ∀ id ∈ m.defined, (m.cls id).ancestors.length ≤ (maxAncestors + 1) * n := by
  refine ⟨fun lib name ↦ ⟨?_, ?_⟩, fun lib name pending top hclimbs ↦ ⟨?_, ?_, ?_⟩, ?_, ?_,
    h.within.2⟩
  · rintro ⟨id, m', hload⟩
    exact exists_climbs_of_loadWithin hload
  · rintro ⟨pending, top, hclimbs, hle⟩
    obtain ⟨id, m', hload, -⟩ := (hclimbs.loadWithin (maxAncestors + 1)).2 hle
    exact ⟨id, m', hload⟩
  · exact (hclimbs.loadWithin (maxAncestors + 1)).1
  · intro id m' hload
    obtain ⟨pending', top', hclimbs', hle⟩ := exists_climbs_of_loadWithin hload
    obtain ⟨rfl, rfl⟩ := hclimbs.eq hclimbs'
    obtain ⟨id₁, m₁, hload₁, -, hreaches⟩ := (hclimbs.loadWithin (maxAncestors + 1)).2 hle
    cases hload₁.symm.trans hload
    exact hreaches.height
  · exact hclimbs.exists_loadsInTurn
  · exact fun lib image decl superName pending top hread hsuper hclimbs ↦
      hclimbs.define hread hsuper
  · intro name id hid
    exact h.within.1 name id hid

/-! ### A tower of classes -/

/-- The name of the class of a tower that has so many superclasses. -/
def towerName (i : Nat) : String := String.ofList (List.replicate (i + 1) 'k')

theorem towerName_inj {i j : Nat} (h : towerName i = towerName j) : i = j := by
  have hlist := congrArg (List.length ∘ String.toList) h
  simpa [towerName] using hlist

/-- The superclass in a tower. -/
def towerSuper : Nat → Option String
  | 0 => none
  | i + 1 => some (towerName i)

/-- A class of a tower. -/
def towerClass (i : Nat) : ClassDecl := ⟨1, towerName i, towerSuper i, [], []⟩

/-- The image of a class of a tower. -/
def towerImage (i : Nat) : List UInt8 := ((towerClass i).encode.toOption).getD []

/-- The images of a tower up to some class. -/
def towerImages : Nat → Table String (List UInt8)
  | 0 => Table.empty.put (towerName 0) (towerImage 0)
  | n + 1 => (towerImages n).put (towerName (n + 1)) (towerImage (n + 1))

/-- A tower up to some class. -/
def towerLibrary (n : Nat) : Library := ⟨#[.memory (towerImages n)]⟩

theorem get?_towerImages {n i : Nat} (h : i ≤ n) :
    (towerImages n).get? (towerName i) = some (towerImage i) := by
  induction n with
  | zero =>
    obtain rfl := Nat.le_zero.mp h
    exact (Table.get?_put ..).trans (if_pos rfl)
  | succ n ih =>
    rw [towerImages, Table.get?_put]
    split
    · next hname => rw [towerName_inj hname]
    · next hname =>
      refine ih (Nat.le_of_lt_succ (Nat.lt_of_le_of_ne h fun hi ↦ hname ?_))
      rw [hi]

/-- The images of the classes with few superclasses hold them. -/
theorem decode_towerImage {i : Nat} (h : i < 66) :
    ClassDecl.decode (towerImage i) = .ok (towerClass i) := by
  have hencode : ∀ i ∈ List.range 66, (towerClass i).encode.isOk = true := by decide +kernel
  have hi := hencode i (List.mem_range.mpr h)
  cases himage : (towerClass i).encode with
  | error e =>
    rw [himage] at hi
    cases hi
  | ok image =>
    rw [towerImage, himage]
    have hflags : Flag.within 1 Flag.ofClass = true := by decide
    exact ClassDecl.decode_of_encode ⟨hflags, nofun, nofun⟩ himage

theorem findClass_tower {n i : Nat} (hi : i ≤ n) (h : i < 66) :
    (new .standard [0]).findClass (towerLibrary n) (towerName i) = .ok (towerClass i) := by
  have hsource : (towerLibrary n).sources[0]? = some (.memory (towerImages n)) := rfl
  have hfind : (towerLibrary n).find (towerName i) (new .standard [0]).classpath =
      .ok (some (towerImage i)) := by
    simp only [new, Library.find, hsource, Source.find, get?_towerImages hi]
  have hread : (new .standard [0]).readClass (towerImage i) = .ok (towerClass i) :=
    readClass_eq_ok.mpr ⟨decode_towerImage h, fun _ ↦ rfl⟩
  refine bind_eq_ok.mpr ⟨_, hfind, bind_eq_ok.mpr ⟨_, hread, ?_⟩⟩
  exact if_pos rfl

/-- The names of a tower from some class upwards. -/
def towerNames : Nat → List String
  | 0 => [towerName 0]
  | i + 1 => towerName (i + 1) :: towerNames i

@[simp] theorem length_towerNames (i : Nat) : (towerNames i).length = i + 1 := by
  induction i with
  | zero => rfl
  | succ i ih => rw [towerNames, List.length_cons, ih]

/-- On a new machine the whole tower is to be loaded. -/
theorem climbs_tower {n i : Nat} (hi : i ≤ n) (h : i < 66) :
    (new .standard [0]).Climbs (towerLibrary n) (towerName i) (towerNames i) none := by
  induction i with
  | zero => exact .root rfl (findClass_tower hi h) rfl
  | succ i ih =>
    exact .step rfl (findClass_tower hi h) rfl
      (ih (Nat.le_of_succ_le hi) (Nat.lt_of_succ_lt h))

/-- A class with more superclasses than the limit is refused when nothing of its chain is loaded and
is loaded when its superclass was loaded before. -/
theorem tower_hierarchy_depth :
    Calls 0 (new .standard [0]) ∧
      (new .standard [0]).load (towerLibrary 65) (towerName 65) =
        .error (.machine (.linkage (towerName 0) .tooDeep)) ∧
      ∃ id₁ m₁ id m', (new .standard [0]).load (towerLibrary 65) (towerName 64) = .ok (id₁, m₁) ∧
        m₁.load (towerLibrary 65) (towerName 65) = .ok (id, m') ∧
        (m'.cls id).ancestors.length = maxAncestors + 1 := by
  have hnew : Calls 0 (new .standard [0]) := .new _ _
  have hbelow : (new .standard [0]).Climbs (towerLibrary 65) (towerName 64) (towerNames 64) none :=
    climbs_tower (by decide) (by decide)
  have hwhole : (new .standard [0]).Climbs (towerLibrary 65) (towerName 65) (towerNames 65) none :=
    climbs_tower (by decide) (by decide)
  refine ⟨hnew, ?_, ?_⟩
  · exact (hnew.hierarchy_depth.2.1 _ _ _ _ hwhole).1 (by simp [maxAncestors])
  · obtain ⟨id₁, m₁, hload₁, hfound, hreaches⟩ :=
      (hbelow.loadWithin (maxAncestors + 1)).2 (by simp [maxAncestors])
    have hcalls : Calls 1 m₁ := .load _ _ id₁ hnew hload₁
    have hsplit : towerNames 65 = [towerName 65] ++ towerName 64 :: towerNames 63 := rfl
    have hrest : m₁.Climbs (towerLibrary 65) (towerName 65) [towerName 65] (some id₁) :=
      (hsplit ▸ hwhole).take hreaches hfound
    obtain ⟨hexact, hway, -⟩ := hcalls.hierarchy_depth
    obtain ⟨id, m', hload⟩ := (hexact _ _).mpr ⟨_, _, hrest, by simp [maxAncestors]⟩
    refine ⟨id₁, m₁, id, m', hload₁, hload, ?_⟩
    have hlength := (hway _ _ _ _ hrest).2.1 id m' hload
    rw [height, hreaches.height, length_towerNames] at hlength
    simpa [height, maxAncestors] using hlength

end Machine

end Hotswap
