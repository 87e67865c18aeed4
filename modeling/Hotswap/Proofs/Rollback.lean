import Hotswap.Patch.Engine
import Hotswap.Proofs.Keeping

/-!
# Rolling patches back

The transformations considered here end with a result and change the pool through the type in their
hands only. A patch that fails is undone in the record of its target: what the record held was
remembered before the transformation ran. A patch that succeeds can be undone by what it remembered,
and patches that succeeded one after the other are undone by what they remembered, the latest first,
also where several of them had one target.
-/

namespace Hotswap

variable {σ α : Type} {lib : Library}

/-- What is done to a type ends with a result, and apart from the type in hand it leaves the classes
of the pool as they are. -/
def Editing.Spares (lib : Library) (e : Editing σ) (outcome : Except Failure α × Editing σ) :
    Prop :=
  outcome.1 ≠ .error .aborted ∧ e.pool.Keeps lib outcome.2.pool

/-- The transformation of a patch spares the pool, whatever it works on. -/
def Patch.Contained (lib : Library) (patch : Patch σ) : Prop :=
  ∀ (method : Option MethodId) (e : Editing σ), e.Spares lib (patch.transform lib method e)

/-- A patch turns the classes under some names into others: it transforms the class of its target,
in a pool that has these classes, finalizes the outcome and leaves every other class alone. -/
def Patch.Makes (lib : Library) (patch : Patch σ) (classes made : String → Option ClassDecl) :
    Prop :=
  ∃ (old : ClassDecl) (p q : Pool) (method : Option MethodId) (host : σ) (e : Editing σ)
    (image : List UInt8) (type : Editable),
    classes patch.target = some old ∧ p.class? lib = classes ∧
    patch.resolve lib p (.ofDecl old) = (.ok method, q) ∧
    patch.transform lib method ⟨.ofDecl old, q, host⟩ = (.ok (), e) ∧
    e.type.finalize = (.ok image, type) ∧
    made = fun name ↦ if name = patch.target then some type.decl else classes name

/-- Patches turn the classes under some names into others one after the other. -/
inductive Patch.MakesAll (lib : Library) :
    List (Patch σ) → (String → Option ClassDecl) → (String → Option ClassDecl) → Prop
  | nil {classes} : MakesAll lib [] classes classes
  | cons {patch rest classes made last} :
    patch.Makes lib classes made → MakesAll lib rest made last →
      MakesAll lib (patch :: rest) classes last

namespace Patch

/-- Patches that follow others work on what those have made. -/
theorem MakesAll.append {patches rest : List (Patch σ)}
    {classes made last : String → Option ClassDecl} (h : MakesAll lib patches classes made)
    (hrest : MakesAll lib rest made last) : MakesAll lib (patches ++ rest) classes last := by
  induction h with
  | nil => exact hrest
  | cons hpatch _ ih => exact .cons hpatch (ih hrest)

/-- One patch is a list of patches. -/
theorem Makes.all {patch : Patch σ} {classes made : String → Option ClassDecl}
    (h : patch.Makes lib classes made) : MakesAll lib [patch] classes made :=
  .cons h .nil

end Patch

/-! ## Finalizers -/

/-- A finalized type is frozen and its class has the image. -/
theorem Editable.finalize_eq_ok {t type : Editable} {image : List UInt8}
    (h : t.finalize = (.ok image, type)) :
    type.frozen = true ∧ type.decl.encode = .ok image := by
  rw [finalize] at h
  split at h
  · cases h
  · split at h
    · cases h
    · split at h
      · cases h
      · next hencode =>
        cases h
        exact ⟨rfl, hencode⟩

/-- A finalizer finalizes the type, does not touch the pool, and leaves the machine alone where it
fails. -/
structure Finalizer.Sound (f : Finalizer σ α) : Prop where
  pool : ∀ {type type' : Editable} {d d' : Deployment σ} {result : Except Error α},
    f type d = (result, type', d') → d'.pool = d.pool
  machine : ∀ {type type' : Editable} {d d' : Deployment σ} {cause : Error},
    f type d = (.error cause, type', d') → d'.machine = d.machine
  finalizes : ∀ {type type' : Editable} {d d' : Deployment σ} {a : α},
    f type d = (.ok a, type', d') → ∃ image, type.finalize = (.ok image, type')

namespace Deployment

/-- Finalizing a type into its image touches nothing else. -/
theorem toImage_eq {target : String} {type type' : Editable} {d d' : Deployment σ}
    {result : Except Error (List UInt8)} (h : toImage target type d = (result, type', d')) :
    d' = d ∧ ∀ image, result = .ok image → type.finalize = (.ok image, type') := by
  rw [toImage] at h
  split at h
  · next hfinalize =>
    cases h
    refine ⟨rfl, ?_⟩
    intro image himage
    cases himage
    exact hfinalize
  · cases h
    exact ⟨rfl, by intro _ himage; cases himage⟩

/-- Finalizing into an image is sound. -/
theorem sound_toImage (target : String) :
    (toImage target : Finalizer σ (List UInt8)).Sound where
  pool := fun h ↦ congrArg Deployment.pool (toImage_eq h).1
  machine := fun h ↦ congrArg Deployment.machine (toImage_eq h).1
  finalizes := fun h ↦ ⟨_, (toImage_eq h).2 _ rfl⟩

/-- Defining the image of a type as a new class is sound: a refused definition leaves the machine
alone. -/
theorem sound_toNewClass (lib : Library) (definer : Definer) (target : String) :
    (toNewClass lib definer target : Finalizer σ ClassId).Sound where
  pool := by
    intro type type' d d' result h
    rw [toNewClass] at h
    split at h
    · next himage =>
      cases h
      exact (sound_toImage target).pool himage
    · next himage =>
      have hpool := (sound_toImage target).pool himage
      split at h
      · cases h
        exact hpool
      · cases h
        exact hpool
  machine := by
    intro type type' d d' cause h
    rw [toNewClass] at h
    split at h
    · next himage =>
      cases h
      exact (sound_toImage target).machine himage
    · next himage =>
      split at h
      · cases h
      · cases h
        rw [(toImage_eq himage).1]
  finalizes := by
    intro type type' d d' a h
    rw [toNewClass] at h
    split at h
    · cases h
    · next himage =>
      split at h
      · cases h
        exact (sound_toImage target).finalizes himage
      · cases h

end Deployment

/-- A batch that is refused, or for which no capability is obtained, leaves the machine alone. -/
theorem Bridge.redefine_eq_error {b b' : Bridge} {m m' : Machine} {batch : List Replacement}
    {cause : Error} (h : b.redefine m batch = (.error cause, b', m')) : m' = m := by
  rw [redefine] at h
  split at h
  · cases h
  · split at h
    · cases h
      rfl
    · split at h
      · cases h
      · cases h
        rfl

namespace Deployment

/-- Redefining a live class with the image of a type: the image is that of the finalized type, and
the bridge answers. -/
theorem toLiveClass_eq_ok {target : String} {cls : ClassId} {type type' : Editable}
    {d d' : Deployment σ} {classes : List ClassId}
    (h : toLiveClass target cls type d = (.ok classes, type', d')) :
    ∃ image, type.finalize = (.ok image, type') ∧
      d.bridge.redefine d.machine [⟨cls, image⟩] = (.ok classes, d'.bridge, d'.machine) ∧
      d'.pool = d.pool := by
  rw [toLiveClass] at h
  split at h
  · cases h
  · next image held d₁ himage =>
    obtain ⟨hd, hfinalize⟩ := toImage_eq himage
    subst hd
    rcases hredefine : d₁.bridge.redefine d₁.machine [⟨cls, image⟩] with ⟨result, bridge, machine⟩
    rw [hredefine] at h
    cases h
    exact ⟨image, hfinalize image rfl, hredefine, rfl⟩

/-- Redefining a live class with the image of a type is sound: a refused batch leaves the machine
alone. -/
theorem sound_toLiveClass (target : String) (cls : ClassId) :
    (toLiveClass target cls : Finalizer σ (List ClassId)).Sound where
  pool := by
    intro type type' d d' result h
    rw [toLiveClass] at h
    split at h
    · next himage =>
      cases h
      exact (sound_toImage target).pool himage
    · next himage =>
      have hpool := (sound_toImage target).pool himage
      cases h
      exact hpool
  machine := by
    intro type type' d d' cause h
    rw [toLiveClass] at h
    split at h
    · next himage =>
      cases h
      exact (sound_toImage target).machine himage
    · next image held d₁ himage =>
      rcases hredefine : d₁.bridge.redefine d₁.machine [⟨cls, image⟩] with ⟨result, bridge, machine⟩
      rw [hredefine] at h
      cases h
      exact (Bridge.redefine_eq_error hredefine).trans
        (congrArg Deployment.machine (toImage_eq himage).1)
  finalizes := by
    intro type type' d d' classes h
    obtain ⟨image, hfinalize, _⟩ := toLiveClass_eq_ok h
    exact ⟨image, hfinalize⟩

end Deployment

/-! ## What a patch does to a pool -/

/-- The second pool is the first, kept, in which the record of a target has got a type in place of
the class that it held. -/
def Pool.Takes (lib : Library) (p : Pool) (target : String) (undo : Undo) (type : Editable)
    (q : Pool) : Prop :=
  ∃ (kept : Pool) (record : Record), p.Keeps lib kept ∧
    kept.bound? target = some undo.record ∧ kept.record? undo.record = some record ∧
    record.type.decl = undo.snapshot ∧ record.broken = false ∧
    q = kept.modify undo.record fun r ↦ { r with type }

namespace Pool.Takes

variable {p q : Pool} {target : String} {undo : Undo} {type : Editable}

/-- The record of the target holds the type. -/
theorem record? (h : p.Takes lib target undo type q) :
    q.record? undo.record = some ⟨type, false⟩ := by
  obtain ⟨kept, record, _, _, hrecord, _, hbroken, hq⟩ := h
  rw [hq, record?_modify_self, hrecord, Option.map_some, hbroken]

/-- The record is that of the target. -/
theorem bound? (h : p.Takes lib target undo type q) : q.bound? target = some undo.record := by
  obtain ⟨kept, record, _, hbound, _, _, _, hq⟩ := h
  rw [hq, bound?_modify, hbound]

/-- The record is one of the pool. -/
theorem lt_size (h : p.Takes lib target undo type q) : undo.record.index < q.size := by
  obtain ⟨name, hname⟩ := record?_eq_some_iff.mp h.record?
  exact lt_size_of_getElem? hname

/-- The target had the class that was remembered. -/
theorem class?_target (h : p.Takes lib target undo type q) :
    p.class? lib target = some undo.snapshot := by
  obtain ⟨kept, record, hkept, hbound, hrecord, hdecl, _, _⟩ := h
  rw [← hkept.class? target, class?_of_bound hbound, hrecord, ← hdecl]
  rfl

/-- The target has got the class of the type, and every other name has the class that it had. -/
theorem class? (h : p.Takes lib target undo type q) (name : String) :
    q.class? lib name = if name = target then some type.decl else p.class? lib name := by
  obtain ⟨kept, record, hkept, hbound, hrecord, _, _, hq⟩ := h
  rw [hq, class?_modify hbound hrecord, hkept.class? name]

/-- The pool is kept just if the type has the class that was remembered. -/
theorem keeps_iff (h : p.Takes lib target undo type q) :
    p.Keeps lib q ↔ type.decl = undo.snapshot := by
  constructor
  · intro hkeeps
    have hclass := hkeeps.class? target
    rw [h.class?, h.class?_target, if_pos rfl] at hclass
    exact Option.some.inj hclass
  · intro htype
    obtain ⟨kept, record, hkept, _, hrecord, hdecl, _, hq⟩ := h
    rw [hq]
    refine hkept.trans (keeps_modify ?_)
    intro record' hrecord'
    rw [hrecord] at hrecord'
    cases hrecord'
    exact ⟨htype.trans hdecl.symm, rfl⟩

end Pool.Takes

namespace Deployment

/-- Putting back what a patch remembered undoes it. -/
theorem keeps_restore {p : Pool} {target : String} {undo : Undo} {type : Editable}
    {d : Deployment σ} (h : p.Takes lib target undo type d.pool) :
    p.Keeps lib (d.restore undo).pool := by
  obtain ⟨kept, record, hkept, _, hrecord, hdecl, hbroken, hq⟩ := h
  rw [restore, hq, Pool.modify_modify]
  refine hkept.trans (Pool.keeps_modify ?_)
  intro record' hrecord'
  rw [hrecord] at hrecord'
  cases hrecord'
  simp [hbroken, hdecl, Editable.ofDecl]

/-- Putting a class back in a pool and in one that keeps it, the second keeps the first. -/
theorem keeps_restore_of_keeps {d d' : Deployment σ} (h : d.pool.Keeps lib d'.pool) {undo : Undo}
    (hundo : undo.record.index < d.pool.size) :
    (d.restore undo).pool.Keeps lib (d'.restore undo).pool := by
  simp only [restore]
  refine h.modify hundo ?_
  intro record type hdecl
  cases hbroken : record.broken <;> simp [hbroken, hdecl]

/-- Undoing several patches leaves the machine alone. -/
theorem machine_undoAll (d : Deployment σ) (undo : List Undo) :
    (d.undoAll undo).machine = d.machine := by
  rw [undoAll]
  induction undo.reverse generalizing d with
  | nil => rfl
  | cons u rest ih => exact ih (d.restore u)

/-- What undoing several patches makes of a pool depends on nothing else. -/
theorem pool_undoAll (d d' : Deployment σ) (h : d'.pool = d.pool) (undo : List Undo) :
    (d'.undoAll undo).pool = (d.undoAll undo).pool := by
  rw [undoAll, undoAll]
  induction undo.reverse generalizing d d' with
  | nil => exact h
  | cons u rest ih =>
    refine ih (d.restore u) (d'.restore u) ?_
    simp only [restore, h]

/-- The patch that came last is undone first. -/
theorem undoAll_append (d : Deployment σ) (undo : List Undo) (last : Undo) :
    d.undoAll (undo ++ [last]) = (d.restore last).undoAll undo := by
  simp [undoAll]

/-- Undoing patches in a pool and in one that keeps it, the second keeps the first. -/
theorem keeps_undoAll {d d' : Deployment σ} (h : d.pool.Keeps lib d'.pool) {undo : List Undo}
    (hundo : ∀ u ∈ undo, u.record.index < d.pool.size) :
    (d.undoAll undo).pool.Keeps lib (d'.undoAll undo).pool := by
  have hreverse : ∀ u ∈ undo.reverse, u.record.index < d.pool.size :=
    fun u hu ↦ hundo u (List.mem_reverse.mp hu)
  clear hundo
  rw [undoAll, undoAll]
  generalize undo.reverse = us at hreverse
  induction us generalizing d d' with
  | nil => exact h
  | cons u rest ih =>
    have hu := hreverse u List.mem_cons_self
    have hrest : ∀ v ∈ rest, v.record.index < (d.restore u).pool.size := by
      intro v hv
      simp only [restore, Pool.size_modify]
      exact hreverse v (List.mem_cons_of_mem u hv)
    exact ih (keeps_restore_of_keeps h hu) hrest

end Deployment

/-! ## The pipeline of a patch -/

/-- A transformation starts: the record of the target was found usable, its class is handed out
thawed, and the method was resolved. -/
structure Patch.Starts (lib : Library) (patch : Patch σ) (p : Pool) (id : RecordId)
    (decl : ClassDecl) (method : Option MethodId) (q : Pool) : Prop where
  keeps : p.Keeps lib q
  bound : q.bound? patch.target = some id
  record : ∃ type, q.record? id = some ⟨type, false⟩ ∧ type.decl = decl
  resolves : ∃ r, p.Keeps lib r ∧ patch.resolve lib r (.ofDecl decl) = (.ok method, q)

/-- What a patch leaves behind when it succeeds: the pool with the patched type, made from the class
that the target had, and whatever the finalizer has done to the bridge and the machine. -/
structure Patch.Succeeds (lib : Library) (patch : Patch σ) (f : Finalizer σ α) (d : Deployment σ)
    (a : α) (undo : Undo) (type : Editable) (d' : Deployment σ) : Prop where
  takes : d.pool.Takes lib patch.target undo type d'.pool
  makes : patch.Makes lib (d.pool.class? lib) (d'.pool.class? lib)
  finalizes : ∃ (held : Editable) (before after : Deployment σ), before.bridge = d.bridge ∧
    before.machine = d.machine ∧ f held before = (.ok a, type, after) ∧
    after.bridge = d'.bridge ∧ after.machine = d'.machine

namespace Deployment

variable {patch : Patch σ} {f : Finalizer σ α} {d d' : Deployment σ}

private theorem keeps_write {p : Pool} {id : RecordId} {type : Editable} {record : Record}
    (hkeeps : p.Keeps lib d.pool) (hrecord : d.pool.record? id = some record)
    (h : type.decl = record.type.decl) : p.Keeps lib (d.write id type).pool := by
  simp only [write]
  refine hkeeps.trans (Pool.keeps_modify ?_)
  intro record' hthis
  rw [hrecord] at hthis
  cases hthis
  exact ⟨h, rfl⟩

/-- A patch either fails before its transformation starts, and then it keeps the pool, or the
transformation runs. -/
theorem transform_cases {result : Except Failure (α × Undo)}
    (h : transform lib patch f d = (result, d')) :
    (∃ e, result = .error (.error e) ∧ d.pool.Keeps lib d'.pool ∧ d'.machine = d.machine) ∨
      ∃ id decl method q, patch.Starts lib d.pool id decl method q ∧
        transformHeld lib patch f id (.ofDecl decl) method { d with pool := q } = (result, d') := by
  rw [transform] at h
  split at h
  · next e _ =>
    cases h
    exact .inl ⟨e, rfl, .refl _, rfl⟩
  · next pool hget =>
    cases h
    exact .inl ⟨_, rfl, Pool.keeps_get? hget, rfl⟩
  · next id pool hget =>
    have hkeeps := Pool.keeps_get? hget
    dsimp only at h
    split at h
    · cases h
      exact .inl ⟨_, rfl, hkeeps, rfl⟩
    · next record hrecord =>
      split at h
      · cases h
        exact .inl ⟨_, rfl, hkeeps, rfl⟩
      · next hbroken =>
        have hthaw : record.type.thaw = .ofDecl record.type.decl := rfl
        rcases hresolve : patch.resolve lib pool record.type.thaw with ⟨resolved, q⟩
        rw [hresolve] at h
        have hq := Patch.keeps_resolve hresolve
        obtain ⟨type, htype, hdecl⟩ := hq.record? hrecord
        cases resolved with
        | error e =>
          cases h
          refine .inl ⟨e, rfl, ?_, rfl⟩
          exact keeps_write (d := { d with pool := q }) (hkeeps.trans hq) htype hdecl.symm
        | ok method =>
          refine .inr ⟨id, record.type.decl, method, q, ?_, h⟩
          refine ⟨hkeeps.trans hq, hq.bound? (Pool.bound?_get? hget), ?_, pool, hkeeps, ?_⟩
          · rw [Bool.not_eq_true] at hbroken
            exact ⟨type, hbroken ▸ htype, hdecl⟩
          · rw [← hthaw]
            exact hresolve

/-- A patch that succeeds has found a usable record, has run its transformation on the thawed type
and has put into the record what the finalizer has made of the outcome. -/
theorem transform_eq_ok {a : α} {undo : Undo} (h : transform lib patch f d = (.ok (a, undo), d')) :
    ∃ p id record method q e type after, d.pool.get? lib patch.target = .ok (some id, p) ∧
      p.record? id = some record ∧ record.broken = false ∧
      patch.resolve lib p (.ofDecl record.type.decl) = (.ok method, q) ∧
      patch.transform lib method ⟨.ofDecl record.type.decl, q, d.host⟩ = (.ok (), e) ∧
      f e.type { d with pool := e.pool, host := e.host } = (.ok a, type, after) ∧
      undo = ⟨id, record.type.decl⟩ ∧ d' = after.write id type := by
  rw [transform] at h
  split at h
  · cases h
  · cases h
  · next id p hget =>
    dsimp only at h
    split at h
    · cases h
    · next record hrecord =>
      split at h
      · cases h
      · next hbroken =>
        rcases hresolve : patch.resolve lib p record.type.thaw with ⟨resolved, q⟩
        rw [hresolve] at h
        cases resolved with
        | error cause => cases h
        | ok method =>
          simp only [transformHeld] at h
          rcases hrun : patch.transform lib method ⟨record.type.thaw, q, d.host⟩ with ⟨outcome, e⟩
          simp only [hrun] at h
          split at h
          · cases h
          · cases h
          · split at h
            · next type after hfinal =>
              cases h
              exact ⟨p, id, record, method, q, e, type, after, hget, hrecord,
                Bool.not_eq_true _ ▸ hbroken, hresolve, hrun, hfinal, rfl, rfl⟩
            · cases h

/-- The live class of a patch is the one that is found under the name of its target. -/
theorem targetClass_eq_ok {definer : Definer} {cls : ClassId} :
    d.targetClass definer patch = .ok cls ↔
      definer.findLoaded d.machine patch.target = some cls := by
  rw [targetClass]
  split
  · next found hfound => rw [hfound, Except.ok.injEq, Option.some.injEq]
  · next hnone =>
    rw [hnone]
    exact ⟨nofun, nofun⟩

/-- A unit that was prepared is for the live class of the target, and has the image of the patch. -/
theorem prepare_eq_ok {definer : Definer} {u : Replacement} {undo : Undo}
    (h : prepare lib definer patch d = (.ok (u, undo), d')) :
    d.targetClass definer patch = .ok u.cls ∧
      transform lib patch (toImage patch.target) d = (.ok (u.image, undo), d') := by
  rw [prepare] at h
  split at h
  · cases h
  · next cls hcls =>
    rcases htransform : transform lib patch (toImage patch.target) d with ⟨made, d₁⟩
    rw [htransform] at h
    cases made with
    | error e => cases h
    | ok made =>
      cases h
      exact ⟨hcls, rfl⟩

/-- Patches that were prepared begin with one that was, and go on from there. -/
theorem prepareAll_cons_eq_ok {definer : Definer} {rest : List (Patch σ)} {undo undo' : List Undo}
    {batch : List Replacement}
    (h : prepareAll lib definer undo d (patch :: rest) = (.ok (batch, undo'), d')) :
    ∃ u back d₁ others, prepare lib definer patch d = (.ok (u, back), d₁) ∧
      prepareAll lib definer (undo ++ [back]) d₁ rest = (.ok (others, undo'), d') ∧
      batch = u :: others := by
  rw [prepareAll] at h
  split at h
  · cases h
  · cases h
  · next u back d₁ hprepare =>
    split at h
    · next others _ _ hall =>
      cases h
      exact ⟨u, back, d₁, others, hprepare, hall, rfl⟩
    · cases h

/-- A contained transformation that fails, or whose finalizer fails, does so with an error and is
undone in the pool, and the machine is as it was. -/
theorem transform_error (hpatch : patch.Contained lib) (hf : f.Sound) {e : Failure}
    (h : transform lib patch f d = (.error e, d')) :
    e ≠ .aborted ∧ d.pool.Keeps lib d'.pool ∧ d'.machine = d.machine := by
  rcases transform_cases h with ⟨_, he, hkeeps⟩ | ⟨id, decl, method, q, hstarts, h⟩
  · cases he
    exact ⟨Failure.noConfusion, hkeeps⟩
  · rw [transformHeld] at h
    obtain ⟨habort, hpool⟩ := hpatch method ⟨.ofDecl decl, q, d.host⟩
    rcases hrun : patch.transform lib method ⟨.ofDecl decl, q, d.host⟩ with ⟨outcome, e'⟩
    rw [hrun] at habort hpool
    simp only [hrun] at h
    obtain ⟨type, hrecord, hdecl⟩ := hstarts.record
    obtain ⟨type', hrecord', hdecl'⟩ := hpool.record? hrecord
    have hkept : d.pool.Keeps lib e'.pool := hstarts.keeps.trans hpool
    have hsnapshot : (Editable.ofDecl (Editable.ofDecl decl).decl).decl = type'.decl :=
      (hdecl'.trans hdecl).symm
    split at h
    · exact absurd rfl habort
    · cases h
      exact ⟨Failure.noConfusion, keeps_write hkept hrecord' hsnapshot, rfl⟩
    · split at h
      · cases h
      · next after hfinal =>
        have hafter : after.pool = e'.pool := hf.pool hfinal
        have hmachine := hf.machine hfinal
        cases h
        refine ⟨Failure.noConfusion, ?_, hmachine⟩
        rw [← hafter] at hkept
        exact keeps_write hkept (hafter ▸ hrecord') hsnapshot

/-- A contained transformation that succeeds, with its finalizer, leaves the patched type in the
record of the target. -/
theorem transform_ok (hpatch : patch.Contained lib) (hf : f.Sound) {a : α} {undo : Undo}
    (h : transform lib patch f d = (.ok (a, undo), d')) :
    ∃ type, patch.Succeeds lib f d a undo type d' := by
  rcases transform_cases h with ⟨_, he, _⟩ | ⟨id, decl, method, q, hstarts, h⟩
  · cases he
  · rw [transformHeld] at h
    obtain ⟨_, hpool⟩ := hpatch method ⟨.ofDecl decl, q, d.host⟩
    rcases hrun : patch.transform lib method ⟨.ofDecl decl, q, d.host⟩ with ⟨outcome, e'⟩
    rw [hrun] at hpool
    simp only [hrun] at h
    obtain ⟨type, hrecord, hdecl⟩ := hstarts.record
    obtain ⟨type', hrecord', hdecl'⟩ := hpool.record? hrecord
    split at h
    · cases h
    · cases h
    · split at h
      · next made after hfinal =>
        have hafter := hf.pool hfinal
        obtain ⟨image, himage⟩ := hf.finalizes hfinal
        cases h
        have htakes : d.pool.Takes lib patch.target ⟨id, decl⟩ made
            (after.write id made).pool := by
          refine ⟨e'.pool, _, hstarts.keeps.trans hpool, hpool.bound? hstarts.bound, hrecord',
            hdecl'.trans hdecl, rfl, ?_⟩
          simp only [write, hafter]
        obtain ⟨r, hr, hresolve⟩ := hstarts.resolves
        refine ⟨made, htakes, ?_, ⟨e'.type, { d with pool := e'.pool, host := e'.host }, after, rfl,
          rfl, hfinal, rfl, rfl⟩⟩
        refine ⟨decl, r, q, method, d.host, e', image, made, htakes.class?_target,
          funext hr.class?, hresolve, hrun, himage, funext htakes.class?⟩
      · cases h

end Deployment

end Hotswap
