import Hotswap.Proofs.LoadedNames
import Hotswap.Proofs.ScriptHistories

/-!
# Pools and machines in agreement

A live patch changes two copies of a class: the one in the pool, by transforming and finalizing it,
and the live one, by the image that finalizing has given. The images of a batch are made one after
the other and taken all at once. If a target occurs several times, its record ends up with what its
last patch has left, and the last of its units in the batch has the image of just that. So the
copies agree at the end, if the image can be read back as the class that it was made of.
-/

namespace Hotswap

/-! ### Bridges to the machine itself -/

/-- A bridge redefines as the machine itself does: its capability is that of the machine, and so is
every one that its agent gives. -/
structure Bridge.Own (b : Bridge) : Prop where
  agent : ∀ {n : Nat} {m : Machine} {c : Capability}, b.agent n m = .ok c → c = Machine.capability
  capability : ∀ {c : Capability}, b.capability = some c → c = Machine.capability

namespace Bridge

variable {b b' : Bridge} {m m' : Machine}

/-- A new bridge to the machine itself. -/
theorem own_new_self : (Bridge.new .self).Own := by
  constructor
  · intro n m c h
    simp only [new, Agent.self] at h
    split at h
    · cases h
      rfl
    · cases h
  · intro c h
    cases h

theorem Own.obtain {c : Capability} (hb : b.Own) (h : b.obtain m = (.ok c, b')) :
    c = Machine.capability := by
  rw [Bridge.obtain] at h
  split at h
  · next hcapability =>
    cases h
    exact hb.capability hcapability
  · split at h
    · next hagent =>
      cases h
      exact hb.agent hagent
    · cases h

/-- A batch that such a bridge takes has been taken by the machine. -/
theorem Own.redefine {batch : List Replacement} {classes : List ClassId} (hb : b.Own)
    (h : b.redefine m batch = (.ok classes, b', m')) : m.redefine batch = .ok (classes, m') := by
  rw [Bridge.redefine] at h
  split at h
  · next hempty =>
    cases h
    rw [List.isEmpty_iff.mp hempty]
    rfl
  · split at h
    · cases h
    · next c b₁ hobtain =>
      obtain rfl := hb.obtain hobtain
      split at h
      · next hbatch =>
        cases h
        exact hbatch
      · cases h

end Bridge

/-! ### Expressible classes -/

theorem MethodDecl.wellFormed_withoutDepth_iff {m : MethodDecl} :
    m.withoutDepth.WellFormed ↔ m.WellFormed := by
  obtain ⟨flags, name, type, body⟩ := m
  constructor
  · rintro ⟨hflags, htype, hcode⟩
    refine ⟨hflags, htype, fun b hb ↦ ?_⟩
    exact hcode { b with maxStack := 0 } (Option.map_eq_some_iff.mpr ⟨b, hb, rfl⟩)
  · rintro ⟨hflags, htype, hcode⟩
    refine ⟨hflags, htype, fun b hb ↦ ?_⟩
    obtain ⟨b', hb', rfl⟩ := Option.map_eq_some_iff.mp hb
    exact hcode b' hb'

/-- Whether an image can hold a class does not depend on the declared depths. -/
theorem ClassDecl.wellFormed_withoutDepths_iff {c : ClassDecl} :
    c.withoutDepths.WellFormed ↔ c.WellFormed := by
  constructor
  · rintro ⟨hflags, hfields, hmethods⟩
    refine ⟨hflags, hfields, fun m hm ↦ ?_⟩
    exact MethodDecl.wellFormed_withoutDepth_iff.mp (hmethods _ (List.mem_map_of_mem hm))
  · rintro ⟨hflags, hfields, hmethods⟩
    refine ⟨hflags, hfields, fun m hm ↦ ?_⟩
    obtain ⟨m', hm', rfl⟩ := List.mem_map.mp hm
    exact MethodDecl.wellFormed_withoutDepth_iff.mpr (hmethods m' hm')

/-- An image can express the class of a finalized type exactly if it could before. -/
theorem Editable.wellFormed_finalized_iff {t t' : Editable} {image : List UInt8}
    (h : t.finalize = (.ok image, t')) : t'.decl.WellFormed ↔ t.decl.WellFormed := by
  rw [← ClassDecl.wellFormed_withoutDepths_iff,
    ClassDecl.withoutDepths_withReachedDepths (verify_of_finalize h).1,
    ClassDecl.wellFormed_withoutDepths_iff]

/-- What is read from the image of a class is that class exactly if the image can express it. -/
theorem ClassDecl.decoded_eq_iff {c c' : ClassDecl} {image : List UInt8}
    (h : c.encode = .ok image) (hdecode : decode image = .ok c') : c' = c ↔ c.WellFormed := by
  constructor
  · rintro rfl
    exact wellFormed_of_decode hdecode
  · intro hformed
    exact Except.ok.inj (hdecode.symm.trans (decode_of_encode hformed h))

/-! ### What patches do to the pool -/

section

variable {σ α : Type} {lib : Library}

namespace Patch

variable {patch : Patch σ} {p q r : Pool} {image : List UInt8}

/-- A transformation that succeeds has done nothing with the pool but to look names up. -/
def LooksUp (lib : Library) (patch : Patch σ) : Prop :=
  ∀ method e e', patch.transform lib method e = (.ok (), e') → e.pool.Loads lib e'.pool

/-- A transformation of a patch has left a type. -/
def Leaves (lib : Library) (patch : Patch σ) (left : Editable) : Prop :=
  ∃ method e e', patch.transform lib method e = (.ok (), e') ∧ e'.type = left

/-- A patch has put what its transformation has left, finalized with an image, into the record of
its target, and has only looked names up beside that. -/
def Finalizes (lib : Library) (patch : Patch σ) (p : Pool) (image : List UInt8) (q : Pool) :
    Prop :=
  ∃ r id held left type, p.Loads lib r ∧ r.bound? patch.target = some id ∧
    r.record? id = some ⟨held, false⟩ ∧ patch.Leaves lib left ∧
    left.finalize = (.ok image, type) ∧ q = r.modify id fun record ↦ { record with type }

/-- Names stay bound. -/
theorem Finalizes.bound? (h : patch.Finalizes lib p image q) {name : String} {id : RecordId}
    (hbound : p.bound? name = some id) : q.bound? name = some id := by
  obtain ⟨r, id', held, left, type, hloads, -, -, -, -, rfl⟩ := h
  rw [Pool.bound?_modify]
  exact hloads.evolves.bound? hbound

/-- The target is bound to a record with the finalized type. -/
theorem Finalizes.target (h : patch.Finalizes lib p image q) :
    ∃ id left type, patch.Leaves lib left ∧ left.finalize = (.ok image, type) ∧
      q.bound? patch.target = some id ∧ q.record? id = some ⟨type, false⟩ := by
  obtain ⟨r, id, held, left, type, -, hbound, hrecord, hleaves, hfinalize, rfl⟩ := h
  refine ⟨id, left, type, hleaves, hfinalize, ?_, ?_⟩
  · rw [Pool.bound?_modify, hbound]
  · rw [Pool.record?_modify_self, hrecord]
    rfl

/-- The records of other names stay as they are. -/
theorem Finalizes.record? (h : patch.Finalizes lib p image q) {id : RecordId} {record : Record}
    (hrecord : p.record? id = some record) (hother : q.bound? patch.target ≠ some id) :
    q.record? id = some record := by
  obtain ⟨r, id', held, left, type, hloads, hbound, -, -, -, rfl⟩ := h
  have hne : id' ≠ id := by
    rintro rfl
    rw [Pool.bound?_modify] at hother
    exact hother hbound
  rw [Pool.record?_modify_of_ne r _ hne]
  exact hloads.record? hrecord

/-- A patch that succeeds has done that, whatever the finalizer did with the image. -/
theorem finalizes_of_transform {f : Finalizer σ α} {d d' : Deployment σ} {a : α} {undo : Undo}
    (hpatch : patch.LooksUp lib) (hf : f.Sound)
    (h : d.transform lib patch f = (.ok (a, undo), d')) :
    ∃ left held type after image, held.bridge = d.bridge ∧ held.machine = d.machine ∧
      f left held = (.ok a, type, after) ∧ left.finalize = (.ok image, type) ∧
      patch.Finalizes lib d.pool image d'.pool ∧ d'.bridge = after.bridge ∧
      d'.machine = after.machine := by
  obtain ⟨p, id, record, method, q, e, type, after, hget, hrecord, hbroken, hresolve, hrun, hfinal,
    -, rfl⟩ := Deployment.transform_eq_ok h
  obtain ⟨image, hfinalize⟩ := hf.finalizes hfinal
  have hpool : after.pool = e.pool := hf.pool hfinal
  have hloads : p.Loads lib e.pool := (loads_resolve hresolve).trans (hpatch method _ e hrun)
  refine ⟨e.type, { d with pool := e.pool, host := e.host }, type, after, image, rfl, rfl, hfinal,
    hfinalize, ?_, rfl, rfl⟩
  refine ⟨e.pool, id, record.type, e.type, type, (Pool.loads_get? hget).trans hloads, ?_, ?_,
    ⟨method, _, e, hrun, rfl⟩, hfinalize, ?_⟩
  · exact hloads.evolves.bound? (Pool.bound?_get? hget)
  · rw [hloads.record? hrecord, ← hbroken]
  · rw [← hpool]
    rfl

/-- A script that neither aborts nor inserts looks names up at most. -/
theorem looksUp_scripted (target : String) (method : Option String) (params : Parameters)
    {edits : List Edit} (h : Edit.AreSparing edits) :
    LooksUp lib ⟨target, method, params, scripted target edits⟩ := by
  have hloads : Editing.Follows lib fun e e' : Editing Log ↦ e.pool.Loads lib e'.pool :=
    { refl := fun _ ↦ .refl
      trans := fun h h' ↦ h.trans h'
      tried := fun _ _ _ ↦ .refl
      get := fun h ↦ Pool.loads_get? (Pool.get_eq_ok.mp h) }
  intro resolved e e' hrun
  have hall : e.pool.Loads lib (scripted target edits lib resolved e).2.pool :=
    Edit.follows_runAll hloads resolved edits (.inl h)
      { e with host := e.host.push (.transform target resolved) }
  rw [show scripted target edits lib resolved e = _ from hrun] at hall
  exact hall

/-- Patches in turn have put finalized types into the records of their targets, each with the image
of a unit for its live class. -/
inductive FinalizesAll (lib : Library) (m : Machine) :
    Pool → List (Patch σ) → List Replacement → Pool → Prop where
  | nil (p : Pool) : FinalizesAll lib m p [] [] p
  | cons {p q r : Pool} {patch : Patch σ} {rest : List (Patch σ)} {u : Replacement}
    {batch : List Replacement} : m.findLoaded patch.target = some u.cls →
    patch.Finalizes lib p u.image q → FinalizesAll lib m q rest batch r →
    FinalizesAll lib m p (patch :: rest) (u :: batch) r

namespace FinalizesAll

variable {m : Machine} {before after patches : List (Patch σ)} {batch : List Replacement}

/-- The units are for the live classes of the targets, in the order of the patches. -/
theorem classes (h : FinalizesAll lib m p patches batch q) :
    batch.map (some ·.cls) = patches.map (m.findLoaded ·.target) := by
  induction h with
  | nil => rfl
  | cons hcls _ _ ih => rw [List.map_cons, List.map_cons, ih, hcls]

theorem bound? (h : FinalizesAll lib m p patches batch q) {name : String} {id : RecordId}
    (hbound : p.bound? name = some id) : q.bound? name = some id := by
  induction h with
  | nil => exact hbound
  | cons _ hfirst _ ih => exact ih (hfirst.bound? hbound)

/-- The records of names that are no targets stay as they are. -/
theorem record? (h : FinalizesAll lib m p patches batch q) {id : RecordId} {record : Record}
    (hrecord : p.record? id = some record)
    (hother : ∀ patch ∈ patches, q.bound? patch.target ≠ some id) : q.record? id = some record := by
  induction h with
  | nil => exact hrecord
  | cons _ hfirst hrest ih =>
    obtain ⟨hpatch, hothers⟩ := List.forall_mem_cons.mp hother
    exact ih (hfirst.record? hrecord fun hbound ↦ hpatch (hrest.bound? hbound)) hothers

/-- Patches after others start where those have ended. -/
theorem split (h : FinalizesAll lib m p (before ++ after) batch q) :
    ∃ r front back, batch = front ++ back ∧ FinalizesAll lib m p before front r ∧
      FinalizesAll lib m r after back q := by
  induction before generalizing p batch with
  | nil => exact ⟨p, [], batch, rfl, .nil p, h⟩
  | cons patch rest ih =>
    cases h with
    | cons hcls hfirst hrest =>
      obtain ⟨r, front, back, rfl, hfront, hback⟩ := ih hrest
      exact ⟨r, _ :: front, back, rfl, .cons hcls hfirst hfront, hback⟩

/-- The record of a target holds what its last patch has left, finalized with the image of the last
unit of its class. -/
theorem last (h : FinalizesAll lib m p (before ++ patch :: after) batch q) (hm : m.Named)
    (hlast : ∀ other ∈ after, other.target ≠ patch.target) :
    ∃ front u back id left type, batch = front ++ u :: back ∧
      m.findLoaded patch.target = some u.cls ∧ (∀ v ∈ back, v.cls ≠ u.cls) ∧
      patch.Leaves lib left ∧ left.finalize = (.ok u.image, type) ∧
      q.bound? patch.target = some id ∧ q.record? id = some ⟨type, false⟩ := by
  obtain ⟨r, front, back, rfl, -, hback⟩ := h.split
  cases hback with
  | @cons _ q₁ _ _ _ u back hcls hpatch hrest =>
    obtain ⟨id, left, type, hleaves, hfinalize, hbound, hrecord⟩ := hpatch.target
    have hbound' := hrest.bound? hbound
    refine ⟨front, u, back, id, left, type, rfl, hcls, fun v hv hsame ↦ ?_, hleaves, hfinalize,
      hbound', hrest.record? hrecord fun other hother hsame ↦ ?_⟩
    · -- A later unit of the class would come of a later patch of the target.
      have hmem : some v.cls ∈ after.map (m.findLoaded ·.target) := by
        rw [← hrest.classes]
        exact List.mem_map_of_mem hv
      obtain ⟨other, hother, hfound⟩ := List.mem_map.mp hmem
      rw [hsame] at hfound
      exact hlast other hother (hm.name_eq hfound hcls)
    · exact hlast other hother (Pool.name_eq_of_bound? hsame hbound')

/-- As many units are for a class as patches are for its target. -/
theorem countP_cls (h : FinalizesAll lib m p patches batch q) (hm : m.Named) {target : String}
    {cls : ClassId} (hcls : m.findLoaded target = some cls) :
    batch.countP (·.cls = cls) = patches.countP (·.target = target) := by
  calc batch.countP (·.cls = cls)
    _ = (batch.map (some ·.cls)).countP (· = some cls) := by
      rw [List.countP_map]
      simp [Function.comp_def]
    _ = (patches.map (m.findLoaded ·.target)).countP (· = some cls) := by rw [h.classes]
    _ = patches.countP (·.target = target) := by
      rw [List.countP_map]
      refine List.countP_congr fun patch _ ↦ ?_
      simp only [Function.comp_apply, decide_eq_true_eq]
      exact ⟨fun hfound ↦ hm.name_eq hfound hcls, fun htarget ↦ htarget ▸ hcls⟩

end FinalizesAll

end Patch

/-! ### What patches do to the machine -/

namespace Deployment

variable {patch : Patch σ} {patches : List (Patch σ)} {d d' : Deployment σ}

theorem findLoaded_of_targetClass {cls : ClassId}
    (h : d.targetClass .ofMachine patch = .ok cls) :
    d.machine.findLoaded patch.target = some cls :=
  targetClass_eq_ok.mp h

/-- A unit that was prepared is for the live class of the target and has the image. -/
theorem finalizes_of_prepare {u : Replacement} {undo : Undo} (hpatch : patch.LooksUp lib)
    (h : prepare lib .ofMachine patch d = (.ok (u, undo), d')) :
    d.machine.findLoaded patch.target = some u.cls ∧ patch.Finalizes lib d.pool u.image d'.pool ∧
      d'.bridge = d.bridge ∧ d'.machine = d.machine := by
  obtain ⟨hcls, htransform⟩ := prepare_eq_ok h
  obtain ⟨left, held, type, after, image, hbridge, hmachine, hfinal, hfinalize, hpool, hbridge',
    hmachine'⟩ := Patch.finalizes_of_transform hpatch (sound_toImage _) htransform
  obtain ⟨rfl, hmade⟩ := toImage_eq hfinal
  obtain rfl : image = u.image :=
    Except.ok.inj (congrArg Prod.fst (hfinalize.symm.trans (hmade u.image rfl)))
  exact ⟨findLoaded_of_targetClass hcls, hpool, hbridge'.trans hbridge, hmachine'.trans hmachine⟩

theorem finalizesAll_of_prepareAll (hpatches : ∀ patch ∈ patches, patch.LooksUp lib)
    {undo undo' : List Undo} {batch : List Replacement}
    (h : prepareAll lib .ofMachine undo d patches = (.ok (batch, undo'), d')) :
    Patch.FinalizesAll lib d.machine d.pool patches batch d'.pool ∧ d'.bridge = d.bridge ∧
      d'.machine = d.machine := by
  induction patches generalizing d undo batch with
  | nil =>
    cases h
    exact ⟨.nil _, rfl, rfl⟩
  | cons patch rest ih =>
    obtain ⟨hpatch, hrest⟩ := List.forall_mem_cons.mp hpatches
    obtain ⟨u, back, d₁, others, hprepare, hprepareAll, rfl⟩ := prepareAll_cons_eq_ok h
    obtain ⟨hcls, hfinalizes, hbridge, hmachine⟩ := finalizes_of_prepare hpatch hprepare
    obtain ⟨hall, hbridge', hmachine'⟩ := ih hrest hprepareAll
    rw [hmachine] at hall
    exact ⟨.cons hcls hfinalizes hall, hbridge'.trans hbridge, hmachine'.trans hmachine⟩

/-- Patches were made in the pool, and the bridge has taken the batch of their units. -/
def Deploys (lib : Library) (patches : List (Patch σ)) (classes : List ClassId)
    (d d' : Deployment σ) : Prop :=
  ∃ batch, Patch.FinalizesAll lib d.machine d.pool patches batch d'.pool ∧
    d.bridge.redefine d.machine batch = (.ok classes, d'.bridge, d'.machine)

theorem deploys_of_applyAll (hpatches : ∀ patch ∈ patches, patch.LooksUp lib)
    {classes : List ClassId} (h : d.applyAll lib .ofMachine patches = (.ok classes, d')) :
    Deploys lib patches classes d d' := by
  rw [applyAll] at h
  split at h
  · cases h
  · next batch undo d₁ hprepare =>
    obtain ⟨hall, hbridge, hmachine⟩ := finalizesAll_of_prepareAll hpatches hprepare
    rcases hredefine : d₁.bridge.redefine d₁.machine batch with ⟨result, bridge, machine⟩
    rw [hredefine] at h
    cases result with
    | error e => cases h
    | ok classes =>
      cases h
      rw [hbridge, hmachine] at hredefine
      exact ⟨batch, hall, hredefine⟩

/-- A patch that is applied live is a batch of one. -/
theorem deploys_of_applyLive (hpatch : patch.LooksUp lib) (hbridge : d.bridge.Own) {cls : ClassId}
    (h : d.applyLive lib .ofMachine patch = (.ok cls, d')) : Deploys lib [patch] [cls] d d' := by
  rw [applyLive] at h
  split at h
  · cases h
  · next target htarget =>
    rcases htransform : transform lib patch (toLiveClass patch.target target) d with ⟨made, d₁⟩
    rw [htransform] at h
    cases made with
    | error e => cases h
    | ok made =>
      obtain ⟨classes, undo⟩ := made
      obtain ⟨left, held, type, after, image, hheld, hmachine, hfinal, hfinalize, hpool, hbridge₁,
        hmachine₁⟩ := Patch.finalizes_of_transform hpatch (sound_toLiveClass _ _) htransform
      obtain ⟨image', hfinalize', hredefine, -⟩ := toLiveClass_eq_ok hfinal
      obtain rfl : image = image' :=
        Except.ok.inj (congrArg Prod.fst (hfinalize.symm.trans hfinalize'))
      rw [hheld, hmachine, ← hbridge₁, ← hmachine₁] at hredefine
      -- The machine gives back the one class that the unit is for.
      obtain ⟨rfl, -⟩ := Machine.redefine_eq_ok.mp (hbridge.redefine hredefine)
      cases h
      have hcls := findLoaded_of_targetClass htarget
      exact ⟨[⟨target, image⟩], .cons hcls hpool (.nil _), hredefine⟩

/-- What the patches of a target have come to. Its record holds what the last of them has left,
finalized, and the live class that is found has counted all of them and has its static values as
they were. Its definition is that of the record exactly if an image can express that, which comes to
whether an image can express what was left. -/
structure Patched (lib : Library) (patches : List (Patch σ)) (d d' : Deployment σ)
    (target : String) (left : Editable) (cls : ClassId) : Prop where
  last : ∃ before patch after, patches = before ++ patch :: after ∧ patch.target = target ∧
    (∀ other ∈ after, other.target ≠ target) ∧ patch.Leaves lib left
  pooled : ∃ id, d'.pool.bound? target = some id ∧
    d'.pool.record? id = some ⟨left.finalize.2, false⟩
  found : d'.machine.findLoaded target = some cls
  live : d'.machine.cls cls = { d.machine.cls cls with
    decl := (d'.machine.cls cls).decl
    redefinitions := (d.machine.cls cls).redefinitions +
      UInt32.ofNat (patches.countP (·.target = target)) }
  agrees : (d'.machine.cls cls).decl = left.finalize.2.decl ↔ left.finalize.2.decl.WellFormed
  expressible : left.finalize.2.decl.WellFormed ↔ left.decl.WellFormed

/-- After patches were applied, pool and machine agree on every target, the classes are those that
are found under the targets, and everything else is as it was: the machine but for its classes, the
other classes and the other records. -/
structure Agrees (lib : Library) (patches : List (Patch σ)) (classes : List ClassId)
    (d d' : Deployment σ) : Prop where
  classes : classes.map some = patches.map (d'.machine.findLoaded ·.target)
  targets : ∀ target ∈ patches.map (·.target), ∃ left cls,
    Patched lib patches d d' target left cls
  machine : d'.machine = { d.machine with classes := d'.machine.classes }
  size : d'.machine.classes.size = d.machine.classes.size
  others : ∀ cls, (∀ patch ∈ patches, d'.machine.findLoaded patch.target ≠ some cls) →
    d'.machine.cls cls = d.machine.cls cls
  records : ∀ id record, d.pool.record? id = some record →
    (∀ patch ∈ patches, d'.pool.bound? patch.target ≠ some id) → d'.pool.record? id = some record

/-- Every target has a last patch. -/
theorem exists_last {target : String} (h : target ∈ patches.map (·.target)) :
    ∃ before patch after, patches = before ++ patch :: after ∧ patch.target = target ∧
      ∀ other ∈ after, other.target ≠ target := by
  induction patches with
  | nil => cases h
  | cons first rest ih =>
    by_cases hrest : target ∈ rest.map (·.target)
    · obtain ⟨before, patch, after, rfl, hpatch, hlast⟩ := ih hrest
      exact ⟨first :: before, patch, after, rfl, hpatch, hlast⟩
    · have hfirst : first.target = target := by
        rcases List.mem_cons.mp h with hfirst | hmem
        · exact hfirst.symm
        · exact absurd hmem hrest
      exact ⟨[], first, rest, rfl, hfirst, fun other hother hsame ↦
        hrest (List.mem_map.mpr ⟨other, hother, hsame⟩)⟩

/-- If the bridge is one to the machine itself, the copies agree. -/
theorem Deploys.agrees {classes : List ClassId} (h : Deploys lib patches classes d d')
    (hclosed : d.machine.Closed) (hnamed : d.machine.Named) (hbridge : d.bridge.Own) :
    Agrees lib patches classes d d' := by
  obtain ⟨batch, hall, hredefine⟩ := h
  obtain ⟨rfl, changes, rfl, htakes, hmachine⟩ :=
    Machine.redefine_eq_ok.mp (hbridge.redefine hredefine)
  have hfound : ∀ u ∈ changes.map Prod.fst, ∃ patch ∈ patches,
      d.machine.findLoaded patch.target = some u.cls := by
    intro u hu
    have hmem : some u.cls ∈ patches.map (d.machine.findLoaded ·.target) := by
      rw [← hall.classes]
      exact List.mem_map_of_mem hu
    exact List.mem_map.mp hmem
  have heffect : d.machine.Redefined (changes.map Prod.fst) d'.machine := by
    rw [hmachine]
    refine Machine.redefined_swapAll (fun c hc ↦ ?_) fun c hc ↦ (htakes c hc).1
    obtain ⟨patch, -, hcls⟩ := hfound c.1 (List.mem_map_of_mem hc)
    exact hclosed.system patch.target c.1.cls hcls
  have hsystem : ∀ name, d'.machine.findLoaded name = d.machine.findLoaded name := by
    intro name
    rw [heffect.only_classes]
    rfl
  constructor
  case classes =>
    simp only [hsystem]
    rw [← hall.classes, List.map_map]
    rfl
  case targets =>
    intro target htarget
    obtain ⟨before, patch, after, hpatches, rfl, hlast⟩ := exists_last htarget
    rw [hpatches] at hall
    obtain ⟨front, u, back, id, left, type, hbatch, hcls, hback, hleaves, hfinalize, hbound,
      hrecord⟩ := hall.last hnamed hlast
    obtain ⟨decl, hdecode, hlive⟩ := heffect.replaced front u back hbatch hback
    have hdecl : (d'.machine.cls u.cls).decl = decl := congrArg LiveClass.decl hlive
    obtain rfl : left.finalize.2 = type := congrArg Prod.snd hfinalize
    refine ⟨left, u.cls, ⟨before, patch, after, hpatches, rfl, hlast, hleaves⟩,
      ⟨id, hbound, hrecord⟩, ?_, ?_, ?_, Editable.wellFormed_finalized_iff hfinalize⟩
    · rw [hsystem, hcls]
    · rw [hdecl, hpatches, ← hall.countP_cls hnamed hcls]
      exact hlive
    · rw [hdecl]
      exact ClassDecl.decoded_eq_iff (Editable.finalize_eq_ok hfinalize).2 hdecode
  case machine => exact heffect.only_classes
  case size => exact heffect.size
  case others =>
    intro cls hcls
    refine heffect.others cls fun u hu hsame ↦ ?_
    obtain ⟨patch, hpatch, hpatched⟩ := hfound u hu
    rw [hsame, ← hsystem] at hpatched
    exact hcls patch hpatch hpatched
  case records => exact fun id record hrecord hother ↦ hall.record? hrecord hother

/-- After a live patch that succeeds, alone or in a batch, pool and machine agree on the targets and
nothing else was changed, in every state that arises, if the bridge is one to the machine itself and
the transformations look names up at most. -/
theorem agrees_of_ok {τ : Type} {w : World τ} (hw : w.Arises) (hmachine : d.machine = w.machine)
    (hbridge : d.bridge.Own) (hpatches : ∀ patch ∈ patches, patch.LooksUp lib) :
    (∀ classes d', d.applyAll lib .ofMachine patches = (.ok classes, d') →
      Agrees lib patches classes d d') ∧
    ∀ patch ∈ patches, ∀ cls d', d.apply lib .ofMachine patch true = (.ok cls, d') →
      Agrees lib [patch] [cls] d d' := by
  have hclosed : d.machine.Closed := hmachine ▸ hw.inStep.closed
  have hnamed : d.machine.Named := hmachine ▸ hw.named
  constructor
  · intro classes d' h
    exact (deploys_of_applyAll hpatches h).agrees hclosed hnamed hbridge
  · intro patch hpatch cls d' h
    exact (deploys_of_applyLive (hpatches patch hpatch) hbridge h).agrees hclosed hnamed hbridge

end Deployment

end

namespace Deployment

open Operation

/-- A deployment of the machine that has loaded the class, with a bridge to that machine. -/
def liveDeployment : Deployment Log := { sampleDeployment with bridge := .new .self }

/-- Two patches of the class. -/
def livePatches : List (Patch Log) := [samplePatch 2 [], samplePatch 3 []]

theorem arises_liveDeployment : (⟨liveDeployment.machine, ()⟩ : World Unit).Arises := by
  have hnew : World.Arises ⟨.new .standard [0], ()⟩ := .new .standard [0] ()
  show (⟨sampleDeployment.machine, ()⟩ : World Unit).Arises
  unfold sampleDeployment
  dsimp only
  split
  · next id machine h => exact hnew.operate () (.load _ _ id h)
  · exact hnew

/-- The class was patched twice, and record and live class hold what the second patch has left. -/
theorem liveDeployment_agrees :
    (⟨liveDeployment.machine, ()⟩ : World Unit).Arises ∧ liveDeployment.bridge.Own ∧
      (∀ patch ∈ livePatches, patch.LooksUp sampleLibrary) ∧
      ∃ d', liveDeployment.applyAll sampleLibrary .ofMachine livePatches =
          (.ok [⟨0⟩, ⟨0⟩], d') ∧
        (d'.pool.record? ⟨0⟩).map (·.type.decl) = some (sampleClass 3) ∧
        (d'.machine.cls ⟨0⟩).decl = sampleClass 3 ∧
        (d'.machine.cls ⟨0⟩).redefinitions =
          (liveDeployment.machine.cls ⟨0⟩).redefinitions + 2 := by
  have hworld := arises_liveDeployment
  have hbridge : liveDeployment.bridge.Own := Bridge.own_new_self
  have hpatches : ∀ patch ∈ livePatches, patch.LooksUp sampleLibrary := by
    have hpatch : ∀ n, (samplePatch n []).LooksUp sampleLibrary := fun n ↦
      Patch.looksUp_scripted _ _ _ ⟨trivial, trivial⟩
    exact List.forall_mem_cons.mpr ⟨hpatch 2, List.forall_mem_singleton.mpr (hpatch 3)⟩
  refine ⟨hworld, hbridge, hpatches, ?_⟩
  rcases hrun : liveDeployment.applyAll sampleLibrary .ofMachine livePatches with ⟨result, d'⟩
  have hresult : (liveDeployment.applyAll sampleLibrary .ofMachine livePatches).1 =
    .ok [⟨0⟩, ⟨0⟩] := by cbv
  have hbound : (liveDeployment.applyAll sampleLibrary .ofMachine livePatches).2.pool.bound?
    "k.P" = some ⟨0⟩ := by cbv
  have hclass : ((liveDeployment.applyAll sampleLibrary .ofMachine livePatches).2.pool.record?
    ⟨0⟩).map (·.type.decl) = some (sampleClass 3) := by cbv
  rw [hrun] at hresult hbound hclass
  obtain rfl : result = _ := hresult
  have hagrees := (agrees_of_ok hworld rfl hbridge hpatches).1 _ d' hrun
  obtain ⟨left, cls, hpatched⟩ := hagrees.targets "k.P" List.mem_cons_self
  obtain rfl : ⟨0⟩ = cls :=
    Option.some.inj ((List.cons.inj hagrees.classes).1.trans hpatched.found)
  obtain ⟨id, hid, hrecord⟩ := hpatched.pooled
  obtain rfl : ⟨0⟩ = id := Option.some.inj (hbound.symm.trans hid)
  have hleft : left.finalize.2.decl = sampleClass 3 := by
    rw [hrecord] at hclass
    exact Option.some.inj hclass
  have hformed : (sampleClass 3).WellFormed := by
    have hread : (sampleClass 3).encode >>= ClassDecl.decode = .ok (sampleClass 3) := by cbv
    obtain ⟨image, -, hdecode⟩ := bind_eq_ok.mp hread
    exact ClassDecl.wellFormed_of_decode hdecode
  refine ⟨d', rfl, hclass, ?_, congrArg LiveClass.redefinitions hpatched.live⟩
  rw [← hleft] at hformed ⊢
  exact hpatched.agrees.mpr hformed

end Deployment

end Hotswap
