import Hotswap.Proofs.LiveWorlds

/-!
# Names of loaded classes

A class is found in the system namespace under the name that its definition has. Loading sees to
that, and since a redefinition keeps names it stays so in every world that arises. No class is
found under two names.
-/

namespace Hotswap

namespace Machine

variable {m m' : Machine} {lib : Library}

/-- Every class of the system namespace is found under its own name. -/
def Named (m : Machine) : Prop :=
  ∀ name id, m.findLoaded name = some id → (m.cls id).decl.name = name

/-- No class is found under two names. -/
theorem Named.name_eq (hm : m.Named) {name name' : String} {id : ClassId}
    (h : m.findLoaded name = some id) (h' : m.findLoaded name' = some id) : name = name' :=
  (hm name id h).symm.trans (hm name' id h')

theorem named_new (config : Config) (classpath : Classpath) : (new config classpath).Named :=
  fun _ _ ↦ nofun

/-- Names stay where the namespace does and layouts are kept. -/
theorem Named.extend (hm : m.Named) (hclosed : m.Closed) (h : m.Extends m')
    (hsystem : m'.system = m.system) : m'.Named := by
  intro name id hid
  rw [findLoaded, hsystem] at hid
  exact (h.schema id (hclosed.system name id hid)).name.trans (hm name id hid)

theorem cls_addClass_new (m : Machine) (c : LiveClass) :
    (m.addClass c).1.cls (m.addClass c).2 = c := by
  simp [addClass, cls, Array.getD_eq_getD_getElem?]

/-- A class that is found on the classpath has the name that was looked for. -/
theorem name_of_findClass {name : String} {decl : ClassDecl}
    (h : m.findClass lib name = .ok decl) : decl.name = name := by
  obtain ⟨found, -, h⟩ := bind_eq_ok.mp h
  cases found with
  | none => cases h
  | some image =>
    obtain ⟨read, -, h⟩ := bind_eq_ok.mp h
    split at h
    · next hname =>
      cases h
      exact hname
    · cases h

theorem Named.ancestry {load : Machine → String → Except Error (ClassId × Machine)}
    {superName : Option String} {ancestors : List ClassId} (hm : m.Named)
    (hload : ∀ name id m', load m name = .ok (id, m') → m'.Named)
    (h : Ancestry load m superName ancestors m') : m'.Named := by
  cases superName with
  | none =>
    obtain ⟨-, rfl⟩ := h
    exact hm
  | some name =>
    obtain ⟨id, h, -⟩ := h
    exact hload name id m' h

/-- Loading puts a class under the name that it was found by. -/
theorem Named.loadWithin {levels : Nat} {name : String} {id : ClassId} (hm : m.Named)
    (hclosed : m.Closed) (h : loadWithin lib levels m name = .ok (id, m')) : m'.Named := by
  induction levels generalizing m m' name id with
  | zero =>
    rcases loadWithin_eq_ok h with ⟨-, rfl⟩ | ⟨below, decl, ancestors, m₁, hlevels, -⟩
    · exact hm
    · cases hlevels
  | succ levels ih =>
    rcases loadWithin_eq_ok h with
      ⟨-, rfl⟩ | ⟨below, decl, ancestors, m₁, hlevels, -, hfind, hsuper, rfl, rfl⟩
    · exact hm
    · cases hlevels
      have hm₁ := hm.ancestry (fun name id m' hload ↦ ih hm hclosed hload) hsuper
      have hlinks := (hclosed.ancestry (fun _ _ _ hload ↦ hclosed.loadWithin hload) hsuper).1
      have hclosed₁ := hlinks.closed hclosed
      intro other id hid
      rw [findLoaded, Table.get?_put] at hid
      split at hid
      · next hother =>
        cases hid
        rw [← hother, ← name_of_findClass hfind]
        exact congrArg (·.decl.name) (m₁.cls_addClass_new (.link 0 decl ancestors))
      · have hold := hm₁ other id hid
        rw [← cls_addClass_of_has (hclosed₁.system other id hid)] at hold
        exact hold

theorem Named.define {image : List UInt8} {id : ClassId} (hm : m.Named) (hclosed : m.Closed)
    (h : m.define lib image = .ok (id, m')) : m'.Named := by
  obtain ⟨decl, ancestors, m₁, -, hsuper, -, rfl⟩ := define_eq_ok h
  have hm₁ := hm.ancestry (fun name id m' hload ↦ hm.loadWithin hclosed hload) hsuper
  have hlinks := (hclosed.ancestry (fun _ _ _ hload ↦ hclosed.load hload) hsuper).1
  have hclosed₁ := hlinks.closed hclosed
  have hadd := hm₁.extend hclosed₁ (m₁.extends_addClass (.link m₁.nextLoader decl ancestors)) rfl
  exact hadd

/-- No operation makes a class be found under another name than its own. -/
theorem Operation.named (h : m.Operation m') (hclosed : m.Closed) (hm : m.Named) : m'.Named := by
  have hextends := h.extends hclosed
  cases h with
  | load lib name id h => exact hm.loadWithin hclosed h
  | define lib image id h => exact hm.define hclosed h
  | redefine batch ids h =>
    obtain ⟨-, changes, -, -, rfl⟩ := redefine_eq_ok.mp h
    exact hm.extend hclosed hextends (by rw [swapAll_eq])
  | allocate hid => exact allocate_cases (P := Named) hm hm
  | setStatic id field v =>
    refine hm.extend hclosed hextends ?_
    exact setStatic_cases (P := fun m' ↦ m'.system = m.system) rfl fun _ ↦ rfl
  | setField id field v =>
    refine hm.extend hclosed hextends ?_
    exact setField_cases (P := fun m' ↦ m'.system = m.system) rfl fun _ ↦ rfl
  | appendClasspath source => exact hm

theorem Operates.named (h : m.Operates m') (hclosed : m.Closed) (hm : m.Named) : m'.Named := by
  induction h with
  | refl => exact hm
  | tail hfirst hlast ih => exact hlast.named (Operates.closed hfirst hclosed) ih

end Machine

/-- In every world that arises classes are found under their own names. -/
theorem World.Arises.named {σ : Type} {w : World σ} (hw : w.Arises) : w.machine.Named := by
  induction hw with
  | new config classpath host => exact Machine.named_new config classpath
  | operate host hw hoperation ih => exact hoperation.named hw.inStep.closed ih
  | invoke target name type args hw hs ih =>
    exact (operates_invoke hs hw.inStep.closed target name type args).named hw.inStep.closed ih
  | midway hw hs hentry hsteps ih =>
    obtain ⟨rfl, hplaced⟩ := placed_enter hw.inStep.closed hentry
    exact (hplaced.steps hs hsteps).1.named hw.inStep.closed ih

end Hotswap
