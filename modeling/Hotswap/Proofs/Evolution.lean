import Hotswap.Proofs.Redefinition
import Hotswap.Proofs.Verification

/-!
# How machines change

The operations that change a machine, one at a time and one after the other. A machine that
verifies holds verified definitions only, whatever operations it has gone through: every class that
is linked and every definition that is put in place of another one has been verified first.
-/

namespace Hotswap

namespace Machine

/-- One operation turned a machine into another one. -/
inductive Change : Machine → Machine → Prop where
  | load {m m' : Machine} (lib : Library) (name : String) (id : ClassId) :
    m.load lib name = .ok (id, m') → Change m m'
  | define {m m' : Machine} (lib : Library) (image : List UInt8) (id : ClassId) :
    m.define lib image = .ok (id, m') → Change m m'
  | redefine {m m' : Machine} (batch : List Replacement) (ids : List ClassId) :
    m.redefine batch = .ok (ids, m') → Change m m'
  | allocate (m : Machine) (id : ClassId) : Change m (allocate id m).2
  | setStatic (m : Machine) (id : ClassId) (field : String) (v : Value) :
    Change m (setStatic id field v m).2
  | setField (m : Machine) (id : ObjectId) (field : String) (v : Value) :
    Change m (setField id field v m).2
  | appendClasspath (m : Machine) (source : Nat) :
    Change m { m with classpath := m.classpath ++ [source] }

/-- Operations one after the other turned a machine into another one. -/
inductive Evolves : Machine → Machine → Prop where
  | refl (m : Machine) : Evolves m m
  | tail {m m' m'' : Machine} : Evolves m m' → Change m' m'' → Evolves m m''

/-- One operation is a sequence of operations. -/
theorem Change.evolves {m m' : Machine} (h : m.Change m') : m.Evolves m' := (Evolves.refl m).tail h

/-- Sequences of operations compose. -/
theorem Evolves.trans {m m' m'' : Machine} (h : m.Evolves m') (h' : m'.Evolves m'') :
    m.Evolves m'' := by
  induction h' with
  | refl => exact h
  | tail _ hchange ih => exact ih.tail hchange

/-- Resolving a name loads at most. -/
theorem evolves_resolve {m m' : Machine} {lib : Library} {context id : ClassId} {name : String}
    (h : m.resolve lib context name = .ok (id, m')) : m.Evolves m' := by
  simp only [resolve] at h
  split at h
  · cases h
    exact .refl m
  · exact (Change.load lib name id h).evolves

/-- The machine verifies, and all its definitions have been verified. -/
structure Verified (m : Machine) : Prop where
  config : m.config.verifyOnDefine = true
  classes : ∀ c ∈ m.classes, c.decl.verify = .ok ()

/-- A machine without classes holds verified definitions only. -/
theorem verified_new {config : Config} (h : config.verifyOnDefine = true) (classpath : Classpath) :
    (new config classpath).Verified := by
  refine ⟨h, fun c hc ↦ ?_⟩
  simp [new] at hc

/-- A machine that verifies reads verified classes only. -/
theorem verify_of_readClass {m : Machine} {image : List UInt8} {decl : ClassDecl}
    (hm : m.config.verifyOnDefine = true) (h : m.readClass image = .ok decl) :
    decl.verify = .ok () := (readClass_eq_ok.mp h).2 hm

/-- A class of the classpath is read as every class is. -/
theorem exists_readClass_of_findClass {m : Machine} {lib : Library} {name : String}
    {decl : ClassDecl} (h : m.findClass lib name = .ok decl) :
    ∃ image, m.readClass image = .ok decl := by
  obtain ⟨found, _, h⟩ := bind_eq_ok.mp h
  cases found with
  | none => cases h
  | some image =>
    obtain ⟨d, hread, h⟩ := bind_eq_ok.mp h
    split at h
    · cases h
      exact ⟨image, hread⟩
    · cases h

/-- Linking a verified class keeps a machine verified. -/
theorem Verified.addClass {m : Machine} {c : LiveClass} (hm : m.Verified)
    (hc : c.decl.verify = .ok ()) : (m.addClass c).1.Verified := by
  refine ⟨hm.config, fun d hd ↦ ?_⟩
  rcases Array.mem_push.mp hd with hd | rfl
  · exact hm.classes d hd
  · exact hc

/-- The ancestors of a class with some superclass and the machine in which that one is loaded. -/
def Ancestry (load : Machine → String → Except Error (ClassId × Machine)) (m : Machine)
    (superName : Option String) (ancestors : List ClassId) (m' : Machine) : Prop :=
  match superName with
  | none => ancestors = [] ∧ m' = m
  | some name => ∃ id, load m name = .ok (id, m') ∧ ancestors = m'.chain id

/-- A class that gets loaded is there already or is linked behind its superclass. -/
theorem loadWithin_eq_ok {lib : Library} {levels : Nat} {m m' : Machine} {name : String}
    {id : ClassId} (h : loadWithin lib levels m name = .ok (id, m')) :
    (m.findLoaded name = some id ∧ m' = m) ∨
      ∃ below decl ancestors m₁, levels = below + 1 ∧ m.findLoaded name = none ∧
        m.findClass lib name = .ok decl ∧
        Ancestry (loadWithin lib below) m decl.superName ancestors m₁ ∧
        id = ⟨m₁.classes.size⟩ ∧
        m' = { (m₁.addClass (.link 0 decl ancestors)).1 with system := m₁.system.put name id } := by
  unfold loadWithin at h
  split at h
  · next found hfound =>
    cases h
    exact .inl ⟨hfound, rfl⟩
  · next hnone =>
    split at h
    · cases h
    · next below =>
      obtain ⟨decl, hfind, h⟩ := bind_eq_ok.mp h
      refine .inr ⟨below, decl, ?_⟩
      cases hs : decl.superName with
      | none =>
        rw [hs] at h
        cases h
        exact ⟨[], m, rfl, hnone, hfind, ⟨rfl, rfl⟩, rfl, rfl⟩
      | some superName =>
        rw [hs] at h
        obtain ⟨⟨superId, m₁⟩, hload, h⟩ := bind_eq_ok.mp h
        cases h
        exact ⟨m₁.chain superId, m₁, rfl, hnone, hfind, ⟨superId, hload, rfl⟩, rfl, rfl⟩

/-- A class that gets defined is linked behind its superclass. -/
theorem define_eq_ok {lib : Library} {m m' : Machine} {image : List UInt8} {id : ClassId}
    (h : m.define lib image = .ok (id, m')) :
    ∃ decl ancestors m₁, m.readClass image = .ok decl ∧
      Ancestry (load · lib) m decl.superName ancestors m₁ ∧ id = ⟨m₁.classes.size⟩ ∧
      m' = { (m₁.addClass (.link m₁.nextLoader decl ancestors)).1 with
        defined := m₁.defined ++ [id], nextLoader := m₁.nextLoader + 1 } := by
  obtain ⟨decl, hread, h⟩ := bind_eq_ok.mp h
  refine ⟨decl, ?_⟩
  cases hs : decl.superName with
  | none =>
    rw [hs] at h
    cases h
    exact ⟨[], m, hread, ⟨rfl, rfl⟩, rfl, rfl⟩
  | some superName =>
    rw [hs] at h
    obtain ⟨⟨superId, m₁⟩, hload, h⟩ := bind_eq_ok.mp h
    cases h
    exact ⟨m₁.chain superId, m₁, hread, ⟨superId, hload, rfl⟩, rfl, rfl⟩

/-- Climbing to a superclass keeps a machine verified if loading does. -/
theorem Verified.ancestry {load : Machine → String → Except Error (ClassId × Machine)}
    {m m' : Machine} {superName : Option String} {ancestors : List ClassId} (hm : m.Verified)
    (hload : ∀ name id m', load m name = .ok (id, m') → m'.Verified)
    (h : Ancestry load m superName ancestors m') : m'.Verified := by
  cases superName with
  | none =>
    obtain ⟨-, rfl⟩ := h
    exact hm
  | some name =>
    obtain ⟨id, h, -⟩ := h
    exact hload name id m' h

/-- Loading keeps a machine verified, however many superclasses it climbs. -/
theorem Verified.loadWithin {lib : Library} {levels : Nat} {m m' : Machine} {name : String}
    {id : ClassId} (hm : m.Verified) (h : loadWithin lib levels m name = .ok (id, m')) :
    m'.Verified := by
  induction levels generalizing m m' name id with
  | zero =>
    rcases loadWithin_eq_ok h with ⟨-, rfl⟩ | ⟨below, decl, ancestors, m₁, hlevels, -⟩
    · exact hm
    · cases hlevels
  | succ levels ih =>
    rcases loadWithin_eq_ok h with
      ⟨-, rfl⟩ | ⟨below, decl, ancestors, m₁, hlevels, -, hfind, hsuper, -, rfl⟩
    · exact hm
    · cases hlevels
      have hm₁ := hm.ancestry (fun name id m' hload ↦ ih hm hload) hsuper
      obtain ⟨image, hread⟩ := exists_readClass_of_findClass hfind
      have hadd := hm₁.addClass (c := .link 0 decl ancestors) (verify_of_readClass hm.config hread)
      exact ⟨hadd.config, hadd.classes⟩

/-- Defining a class keeps a machine verified. -/
theorem Verified.define {lib : Library} {m m' : Machine} {image : List UInt8} {id : ClassId}
    (hm : m.Verified) (h : m.define lib image = .ok (id, m')) : m'.Verified := by
  obtain ⟨decl, ancestors, m₁, hread, hsuper, -, rfl⟩ := define_eq_ok h
  have hm₁ := hm.ancestry (fun name id m' hload ↦ hm.loadWithin hload) hsuper
  have hadd := hm₁.addClass (c := .link m₁.nextLoader decl ancestors)
    (verify_of_readClass hm.config hread)
  exact ⟨hadd.config, hadd.classes⟩

/-- Changing what a class holds besides its definition keeps a machine verified, as does a verified
definition. -/
theorem Verified.modifyClass {m : Machine} {id : ClassId} {f : LiveClass → LiveClass}
    (hm : m.Verified) (hf : ∀ c, c.decl.verify = .ok () → (f c).decl.verify = .ok ()) :
    (m.modifyClass id f).Verified := by
  refine ⟨hm.config, fun c hc ↦ ?_⟩
  obtain ⟨n, hn, rfl⟩ := Array.mem_iff_getElem.mp hc
  simp only [Machine.modifyClass, Array.getElem_modify]
  simp only [Machine.modifyClass, Array.size_modify] at hn
  split
  · exact hf _ (hm.classes _ (Array.getElem_mem hn))
  · exact hm.classes _ (Array.getElem_mem hn)

/-- Redefining classes keeps a machine verified. -/
theorem Verified.redefine {m m' : Machine} {batch : List Replacement} {ids : List ClassId}
    (hm : m.Verified) (h : m.redefine batch = .ok (ids, m')) : m'.Verified := by
  apply redefine_induction (P := Verified) _ hm h
  intro m u decl hm htakes
  apply hm.modifyClass
  exact fun _ _ ↦ htakes.2.1 hm.config

/-- No operation makes a verified machine hold what has not been verified. -/
theorem Change.verified {m m' : Machine} (h : m.Change m') (hm : m.Verified) : m'.Verified := by
  cases h with
  | load lib name id h => exact hm.loadWithin h
  | define lib image id h => exact hm.define h
  | redefine batch ids h => exact hm.redefine h
  | allocate id =>
    unfold Machine.allocate
    split
    · exact hm
    · exact ⟨hm.config, hm.classes⟩
  | setStatic id field v =>
    unfold Machine.setStatic
    split
    · exact hm.modifyClass fun _ hc ↦ hc
    · exact hm
  | setField id field v =>
    unfold Machine.setField
    split
    · exact ⟨hm.config, hm.classes⟩
    · exact hm
  | appendClasspath source => exact ⟨hm.config, hm.classes⟩

/-- Whatever a verified machine goes through, it stays verified. -/
theorem Evolves.verified {m m' : Machine} (h : m.Evolves m') (hm : m.Verified) : m'.Verified := by
  induction h with
  | refl => exact hm
  | tail _ hchange ih => exact hchange.verified ih

/-- The definition of every class number is verified; a number without a class has no methods. -/
theorem Verified.reachedDepth_le {m : Machine} (hm : m.Verified) {id : ClassId} {d : MethodDecl}
    {b : Body} (hd : d ∈ (m.cls id).decl.methods) (hb : d.body = some b) :
    ∃ reached, b.reachedDepth d.argumentSlots d.type.returnsValue = .ok reached ∧
      reached ≤ b.maxStack := by
  by_cases hid : m.Has id
  · refine ClassDecl.reachedDepth_le_of_verify (hm.classes _ ?_) hd hb
    rw [cls, Array.getD_eq_getD_getElem?, Array.getElem?_eq_getElem hid]
    exact Array.getElem_mem hid
  · rw [cls_of_not_has hid] at hd
    cases hd

/-- A method that is found is declared by the class with which it is found, and goes by the type
that was sought. -/
theorem mem_of_lookupMethod {m : Machine} {id owner : ClassId} {name : String} {type : MethodTy}
    {d : MethodDecl} (h : m.lookupMethod id name type = some (owner, d)) :
    d ∈ (m.cls owner).decl.methods ∧ d.type = type := by
  obtain ⟨c, -, hc⟩ := List.exists_of_findSome?_eq_some h
  obtain ⟨d', hd', hpair⟩ := Option.map_eq_some_iff.mp hc
  cases hpair
  have hgoes := List.find?_some hd'
  simp only [MethodDecl.goesBy, Bool.and_eq_true, beq_iff_eq] at hgoes
  exact ⟨List.mem_of_find?_eq_some hd', hgoes.2⟩

end Machine

end Hotswap
