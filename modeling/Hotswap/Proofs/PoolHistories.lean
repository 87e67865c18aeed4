import Hotswap.Proofs.LocalEdits
import Hotswap.Proofs.Operations

/-!
# Histories of pools

Whatever is done with a pool comes down to three steps: one more source is asked, a name that was
not bound gets the class that stands under it, or a record's type goes through turns that keep the
name of its class. Looking names up, inserting, editing and resolving are such steps, and so are the
operations of an engine, if its transformations edit types by their operations only and do nothing
else with the pool than what has a history itself.
-/

namespace Hotswap

namespace Editable

variable {t u v : Editable}

/-- A type has become another one of the same name. -/
def Becomes (t u : Editable) : Prop := u.decl.name = t.decl.name ∧ ∃ turns, u = t.undergoAll turns

theorem Becomes.refl (t : Editable) : t.Becomes t := ⟨rfl, [], rfl⟩

theorem Becomes.trans (h : t.Becomes u) (h' : u.Becomes v) : t.Becomes v := by
  obtain ⟨hname, turns, rfl⟩ := h
  obtain ⟨hname', turns', rfl⟩ := h'
  exact ⟨hname'.trans hname, turns ++ turns', (undergoAll_append _ _ _).symm⟩

/-- A type becomes what a class of its name can become. -/
theorem Becomes.restored {c : ClassDecl} (h : (ofDecl c).Becomes u) (hname : c.name = t.decl.name) :
    t.Becomes u := by
  obtain ⟨hname', turns, rfl⟩ := h
  exact ⟨hname'.trans hname, .restore c :: turns, rfl⟩

private theorem name_finalize (t : Editable) : t.finalize.2.decl.name = t.decl.name := by
  rw [finalize]
  split
  · rfl
  · next decl hdecl =>
    obtain ⟨methods, -, rfl⟩ := map_eq_ok.mp hdecl
    split
    · rfl
    · split <;> rfl

private theorem name_of_tried {c : Change} (h : t.tried c = .ok u) : u.decl.name = t.decl.name := by
  by_cases hc : c.IsEdit
  · exact (edits_of_tried hc h).reachesOnly.name
  · cases c with
    | thaw =>
      cases h
      rfl
    | finalize =>
      cases h
      exact t.name_finalize
    | _ => exact (hc trivial).elim

/-- No change of a type changes its name. -/
theorem becomes_after (t : Editable) (c : Change) : t.Becomes (t.after c) := by
  refine ⟨?_, [.change c], rfl⟩
  rw [after_eq_accept]
  cases h : t.tried c with
  | ok u => exact name_of_tried h
  | error e => rfl

theorem becomes_afterAll (t : Editable) (changes : List Change) :
    t.Becomes (t.afterAll changes) := by
  induction changes generalizing t with
  | nil => exact .refl t
  | cons c rest ih => exact (t.becomes_after c).trans (ih (t.after c))

end Editable

namespace Pool

variable {lib : Library} {p q r : Pool}

/-- The smallest steps that a pool takes. -/
inductive Step : Pool → Pool → Prop where
  /-- One more source is asked, after all others. -/
  | append (p : Pool) (source : Nat) : Step p (p.append source)
  /-- A name is bound that was not. -/
  | bind {p : Pool} {decl : ClassDecl} : p.bound? decl.name = none → Step p (p.bind decl).1
  /-- The type of a record becomes another one. -/
  | modify {p : Pool} {id : RecordId} {f : Record → Record} :
    (∀ record, p.record? id = some record → record.type.Becomes (f record).type) →
    Step p (p.modify id f)

/-- Any number of steps lead from one pool to another. -/
def Evolves : Pool → Pool → Prop := Relation.ReflTransGen Step

/-! ### What steps preserve -/

/-- A record stays where it is, and its type becomes another one. -/
theorem Step.record? (h : p.Step q) {id : RecordId} {record : Record}
    (hrecord : p.record? id = some record) :
    ∃ record', q.record? id = some record' ∧ record.type.Becomes record'.type := by
  cases h with
  | append source => exact ⟨record, hrecord, .refl _⟩
  | bind hnone => exact ⟨record, record?_bind_of_some hrecord _, .refl _⟩
  | @modify other f hf =>
    by_cases hid : other = id
    · subst hid
      exact ⟨f record, by rw [record?_modify_self, hrecord, Option.map_some], hf record hrecord⟩
    · exact ⟨record, by rw [record?_modify_of_ne p f hid, hrecord], .refl _⟩

/-- A name that is bound stays bound to its record. -/
theorem Step.bound? (h : p.Step q) {name : String} {id : RecordId}
    (hbound : p.bound? name = some id) : q.bound? name = some id := by
  cases h with
  | append source => exact hbound
  | bind hnone =>
    obtain ⟨record, hrecord⟩ := bound?_eq_some_iff.mp hbound
    refine bound?_eq_some_iff.mpr ⟨record, ?_⟩
    rw [bindings_bind hnone, List.getElem?_append_left (List.getElem?_eq_some_iff.mp hrecord).1,
      hrecord]
  | modify => rw [bound?_modify, hbound]

theorem Evolves.record? (h : p.Evolves q) {id : RecordId} {record : Record}
    (hrecord : p.record? id = some record) :
    ∃ record', q.record? id = some record' ∧ record.type.Becomes record'.type := by
  induction h with
  | refl => exact ⟨record, hrecord, .refl _⟩
  | tail _ hstep ih =>
    obtain ⟨record', hrecord', hbecomes⟩ := ih
    obtain ⟨record'', hrecord'', hbecomes'⟩ := hstep.record? hrecord'
    exact ⟨record'', hrecord'', hbecomes.trans hbecomes'⟩

theorem Evolves.bound? (h : p.Evolves q) {name : String} {id : RecordId}
    (hbound : p.bound? name = some id) : q.bound? name = some id := by
  induction h with
  | refl => exact hbound
  | tail _ hstep ih => exact hstep.bound? ih

/-- A step leaves the classpath alone, unless it appends a source. -/
theorem Step.classpath (h : p.Step q) :
    (∃ source, q = p.append source) ∨ q.classpath = p.classpath := by
  cases h with
  | append source => exact .inl ⟨source, rfl⟩
  | bind hnone => exact .inr (by rw [bind_of_none hnone, push])
  | modify => exact .inr rfl

/-- The classpath of a pool is that of an earlier one and then the sources that were appended since,
in the order in which they were: each of them came when those before it were there. -/
theorem Evolves.classpath (h : p.Evolves q) :
    ∃ sources, q.classpath = p.classpath ++ sources ∧
      ∀ before source after, sources = before ++ source :: after → ∃ r, p.Evolves r ∧
        r.classpath = p.classpath ++ before ∧ (r.append source).Evolves q := by
  induction h with
  | refl => exact ⟨[], (List.append_nil _).symm, fun before source after h ↦ by simp at h⟩
  | @tail q q' hq hstep ih =>
    obtain ⟨sources, hclasspath, hsources⟩ := ih
    rcases hstep.classpath with ⟨last, rfl⟩ | hsame
    · refine ⟨sources ++ [last], ?_, fun before source after h ↦ ?_⟩
      · rw [append, hclasspath, List.append_assoc]
      · rcases List.eq_nil_or_concat after with rfl | ⟨after, other, rfl⟩
        · -- The source that was appended last.
          obtain ⟨rfl, hlast⟩ := List.append_inj' h rfl
          cases hlast
          exact ⟨q, hq, hclasspath, .refl⟩
        · rw [List.concat_eq_append, ← List.cons_append, ← List.append_assoc] at h
          obtain ⟨rfl, -⟩ := List.append_inj' h rfl
          obtain ⟨r, hr, hbefore, hafter⟩ := hsources before source after rfl
          exact ⟨r, hr, hbefore, hafter.tail hstep⟩
    · refine ⟨sources, hsame.trans hclasspath, fun before source after h ↦ ?_⟩
      obtain ⟨r, hr, hbefore, hafter⟩ := hsources before source after h
      exact ⟨r, hr, hbefore, hafter.tail hstep⟩

/-! ### Looking names up, inserting and editing -/

/-- What was bound to a new record was not bound, and is. -/
theorem evolves_get? {name : String} {found : Option RecordId}
    (h : p.get? lib name = .ok (found, q)) : p.Evolves q := by
  rcases get?_eq_ok h with ⟨-, rfl⟩ | ⟨_, -, -, rfl⟩ | ⟨decl, hnone, ⟨_, _, _, rfl⟩, rfl, -⟩
  · exact .refl
  · exact .refl
  · exact .single (.bind hnone)

theorem Loads.evolves (h : p.Loads lib q) : p.Evolves q := by
  induction h with
  | refl => exact .refl
  | tail _ hstep ih =>
    obtain ⟨name, found, hget⟩ := hstep
    exact ih.trans (evolves_get? hget)

/-- Inserting binds a name that was not bound. -/
theorem insert_eq_ok {decl : ClassDecl} {id : RecordId} :
    p.insert decl = .ok (id, q) ↔ p.bound? decl.name = none ∧ (q, id) = p.bind decl := by
  unfold insert contains
  cases hbound : p.bound? decl.name with
  | some other => simp
  | none =>
    simp only [Option.isSome_none, Bool.false_eq_true, if_false, Except.ok.injEq, Prod.mk.injEq,
      true_and]
    rw [Prod.ext_iff]
    exact ⟨fun ⟨hid, hq⟩ ↦ ⟨hq.symm, hid.symm⟩, fun ⟨hq, hid⟩ ↦ ⟨hid.symm, hq.symm⟩⟩

theorem evolves_insert {decl : ClassDecl} {id : RecordId} (h : p.insert decl = .ok (id, q)) :
    p.Evolves q := by
  obtain ⟨hnone, hq⟩ := insert_eq_ok.mp h
  obtain rfl : q = (p.bind decl).1 := congrArg Prod.fst hq
  exact .single (.bind hnone)

/-- A record may get any type that a class of its name can become. -/
theorem evolves_modify {id : RecordId} {c : ClassDecl} {f : Record → Record}
    (hname : ∀ record, p.record? id = some record → record.type.decl.name = c.name)
    (hf : ∀ record, (Editable.ofDecl c).Becomes (f record).type ∨ (f record).type = record.type) :
    p.Evolves (p.modify id f) := by
  refine .single (.modify fun record hrecord ↦ ?_)
  rcases hf record with hbecomes | hsame
  · exact hbecomes.restored (hname record hrecord).symm
  · rw [hsame]
    exact .refl _

end Pool

/-! ### Engines -/

section

variable {σ α : Type} {lib : Library} {definer : Definer}

/-- The transformation of a patch edits the type by its operations, and all else that it does with
the pool is as a relation says. -/
def Patch.EditsOnly (R : Pool → Pool → Prop) (patch : Patch σ) : Prop :=
  ∀ lib method (e : Editing σ),
    (∃ changes, (patch.transform lib method e).2.type = e.type.afterAll changes) ∧
      R e.pool (patch.transform lib method e).2.pool

/-- What is to be put back is a class of the name that the record has. -/
def Undo.Fits (u : Undo) (p : Pool) : Prop :=
  ∃ record, p.record? u.record = some record ∧ record.type.decl.name = u.snapshot.name

theorem Undo.Fits.evolves {u : Undo} {p q : Pool} (hu : u.Fits p) (h : p.Evolves q) : u.Fits q := by
  obtain ⟨record, hrecord, hname⟩ := hu
  obtain ⟨record', hrecord', hbecomes⟩ := h.record? hrecord
  exact ⟨record', hrecord', hbecomes.1.trans hname⟩

theorem Undo.Fits.name_eq {u : Undo} {p : Pool} (hu : u.Fits p) {record : Record}
    (hrecord : p.record? u.record = some record) : record.type.decl.name = u.snapshot.name := by
  obtain ⟨record', hrecord', hname⟩ := hu
  cases hrecord.symm.trans hrecord'
  exact hname

namespace Deployment

variable {patch : Patch σ} {patches : List (Patch σ)} {f : Finalizer σ α} {d d' : Deployment σ}

/-- A record may be written with what its class can become, and has that name then. -/
theorem evolves_write {u : Undo} (hu : u.Fits d.pool) {type : Editable}
    (htype : (Editable.ofDecl u.snapshot).Becomes type) :
    d.pool.Evolves (d.write u.record type).pool := by
  show d.pool.Evolves (d.pool.modify u.record fun r ↦ { r with type })
  exact Pool.evolves_modify (fun _ h ↦ hu.name_eq h) fun _ ↦ .inl htype

theorem evolves_abandon {u : Undo} (hu : u.Fits d.pool) {type : Editable}
    (htype : (Editable.ofDecl u.snapshot).Becomes type) :
    d.pool.Evolves (d.abandon u.record type).pool := by
  show d.pool.Evolves (d.pool.modify u.record fun _ ↦ ⟨type, true⟩)
  exact Pool.evolves_modify (fun _ h ↦ hu.name_eq h) fun _ ↦ .inl htype

theorem evolves_restore {u : Undo} (hu : u.Fits d.pool) : d.pool.Evolves (d.restore u).pool := by
  show d.pool.Evolves (d.pool.modify u.record fun r ↦
    if r.broken then r else { r with type := .ofDecl u.snapshot })
  refine Pool.evolves_modify (fun _ h ↦ hu.name_eq h) fun record ↦ ?_
  split
  · exact .inr rfl
  · exact .inl (.refl _)

theorem evolves_undoAll {undo : List Undo} (hundo : ∀ u ∈ undo, u.Fits d.pool) :
    d.pool.Evolves (d.undoAll undo).pool := by
  have hreverse : ∀ u ∈ undo.reverse, u.Fits d.pool := fun u hu ↦ hundo u (List.mem_reverse.mp hu)
  clear hundo
  rw [undoAll]
  generalize undo.reverse = us at hreverse
  induction us generalizing d with
  | nil => exact .refl
  | cons u rest ih =>
    obtain ⟨hu, hrest⟩ := List.forall_mem_cons.mp hreverse
    have hstep := evolves_restore hu
    exact hstep.trans (ih fun v hv ↦ (hrest v hv).evolves hstep)

/-- Whatever becomes of a transformation, the record of the type has a type of its name then. -/
theorem evolves_transformHeld (hpatch : patch.EditsOnly Pool.Evolves) (hf : f.Sound) {id : RecordId}
    {decl : ClassDecl} {method : Option MethodId} {result : Except Failure (α × Undo)}
    (hfits : Undo.Fits ⟨id, decl⟩ d.pool)
    (h : transformHeld lib patch f id (.ofDecl decl) method d = (result, d')) :
    d.pool.Evolves d'.pool := by
  rw [transformHeld] at h
  obtain ⟨⟨changes, htype⟩, hpool⟩ := hpatch lib method ⟨.ofDecl decl, d.pool, d.host⟩
  rcases hrun : patch.transform lib method ⟨.ofDecl decl, d.pool, d.host⟩ with ⟨outcome, e⟩
  rw [hrun] at htype hpool
  simp only [hrun] at h
  have hbecomes : (Editable.ofDecl decl).Becomes e.type := by
    rw [htype]
    exact Editable.becomes_afterAll _ changes
  have hfits' : Undo.Fits ⟨id, decl⟩ e.pool := hfits.evolves hpool
  split at h
  · cases h
    exact hpool.trans (evolves_abandon (d := { d with pool := e.pool, host := e.host }) hfits'
      hbecomes)
  · cases h
    exact hpool.trans (evolves_write (d := { d with pool := e.pool, host := e.host }) hfits'
      (.refl _))
  · split at h
    · next made after hfinal =>
      have hafter : after.pool = e.pool := hf.pool hfinal
      obtain ⟨image, himage⟩ := hf.finalizes hfinal
      obtain rfl : e.type.finalize.2 = made := congrArg Prod.snd himage
      cases h
      rw [← hafter] at hpool hfits'
      exact hpool.trans (evolves_write hfits' (hbecomes.trans (e.type.becomes_after .finalize)))
    · next after hfinal =>
      have hafter : after.pool = e.pool := hf.pool hfinal
      cases h
      rw [← hafter] at hpool hfits'
      exact hpool.trans (evolves_write hfits' (.refl _))

/-- What a patch does to the pool has a history. -/
theorem evolves_transform (hpatch : patch.EditsOnly Pool.Evolves) (hf : f.Sound)
    {result : Except Failure (α × Undo)} (h : transform lib patch f d = (result, d')) :
    d.pool.Evolves d'.pool := by
  rw [transform] at h
  split at h
  · cases h
    exact .refl
  · next pool hget =>
    cases h
    exact Pool.evolves_get? hget
  · next id pool hget =>
    have hgot := Pool.evolves_get? hget
    dsimp only at h
    split at h
    · cases h
      exact hgot
    · next record hrecord =>
      split at h
      · cases h
        exact hgot
      · have hfits : Undo.Fits ⟨id, record.type.decl⟩ pool := ⟨record, hrecord, rfl⟩
        rcases hresolve : patch.resolve lib pool record.type.thaw with ⟨resolved, q⟩
        rw [hresolve] at h
        have hq : pool.Evolves q := (Patch.loads_resolve hresolve).evolves
        have hfits' := hfits.evolves hq
        cases resolved with
        | error e =>
          cases h
          exact (hgot.trans hq).trans (evolves_write (d := { d with pool := q }) hfits' (.refl _))
        | ok method =>
          have hheld := evolves_transformHeld hpatch hf (d := { d with pool := q }) hfits' h
          exact (hgot.trans hq).trans hheld

/-- What a patch that succeeds remembers fits the pool then. -/
theorem fits_of_transform (hpatch : patch.EditsOnly Pool.Evolves) (hf : f.Sound) {a : α}
    {undo : Undo} (h : transform lib patch f d = (.ok (a, undo), d')) : undo.Fits d'.pool := by
  obtain ⟨p, id, record, method, q, e, type, after, -, hrecord, -, hresolve, hrun, hfinal, rfl,
    rfl⟩ := transform_eq_ok h
  obtain ⟨⟨changes, htype⟩, hpool⟩ := hpatch lib method ⟨.ofDecl record.type.decl, q, d.host⟩
  rw [hrun] at htype hpool
  have hbecomes : (Editable.ofDecl record.type.decl).Becomes e.type := by
    rw [htype]
    exact Editable.becomes_afterAll _ changes
  obtain ⟨image, himage⟩ := hf.finalizes hfinal
  obtain rfl : e.type.finalize.2 = type := congrArg Prod.snd himage
  have hfits : Undo.Fits ⟨id, record.type.decl⟩ p := ⟨record, hrecord, rfl⟩
  have hfits' := (hfits.evolves (Patch.loads_resolve hresolve).evolves).evolves hpool
  have hafter : after.pool = e.pool := hf.pool hfinal
  rw [← hafter] at hfits'
  exact hfits'.evolves (evolves_write hfits' (hbecomes.trans (e.type.becomes_after .finalize)))

theorem evolves_prepare (hpatch : patch.EditsOnly Pool.Evolves)
    {result : Except Failure (Replacement × Undo)}
    (h : prepare lib definer patch d = (result, d')) : d.pool.Evolves d'.pool := by
  rw [prepare] at h
  split at h
  · cases h
    exact .refl
  · rcases htransform : transform lib patch (toImage patch.target) d with ⟨made, d₁⟩
    rw [htransform] at h
    cases h
    exact evolves_transform hpatch (sound_toImage patch.target) htransform

theorem fits_of_prepare (hpatch : patch.EditsOnly Pool.Evolves) {u : Replacement} {undo : Undo}
    (h : prepare lib definer patch d = (.ok (u, undo), d')) : undo.Fits d'.pool :=
  fits_of_transform hpatch (sound_toImage patch.target) (prepare_eq_ok h).2

/-- What was remembered goes on to fit, and one more undo that fits is remembered. -/
theorem fits_append {undo : List Undo} {back : Undo} {p q : Pool}
    (hundo : ∀ u ∈ undo, u.Fits p) (h : p.Evolves q) (hback : back.Fits q) :
    ∀ u ∈ undo ++ [back], u.Fits q := by
  intro u hu
  rcases List.mem_append.mp hu with hu | hu
  · exact (hundo u hu).evolves h
  · rwa [List.mem_singleton.mp hu]

theorem evolves_prepareAll (hpatches : ∀ patch ∈ patches, patch.EditsOnly Pool.Evolves)
    {undo : List Undo} (hundo : ∀ u ∈ undo, u.Fits d.pool)
    {result : Except Failure (List Replacement × List Undo)}
    (h : prepareAll lib definer undo d patches = (result, d')) : d.pool.Evolves d'.pool := by
  induction patches generalizing d undo result with
  | nil =>
    cases h
    exact .refl
  | cons patch rest ih =>
    obtain ⟨hpatch, hrest⟩ := List.forall_mem_cons.mp hpatches
    rw [prepareAll] at h
    split at h
    · next hprepare =>
      cases h
      exact evolves_prepare hpatch hprepare
    · next d₁ hprepare =>
      have hevolves := evolves_prepare hpatch hprepare
      cases h
      exact hevolves.trans (evolves_undoAll fun u hu ↦ (hundo u hu).evolves hevolves)
    · next u back d₁ hprepare =>
      have hevolves := evolves_prepare hpatch hprepare
      have hundo' := fits_append hundo hevolves (fits_of_prepare hpatch hprepare)
      split at h
      · next hall =>
        cases h
        exact hevolves.trans (ih hrest hundo' hall)
      · next hall =>
        cases h
        exact hevolves.trans (ih hrest hundo' hall)

theorem fits_of_prepareAll (hpatches : ∀ patch ∈ patches, patch.EditsOnly Pool.Evolves)
    {undo undo' : List Undo} (hundo : ∀ u ∈ undo, u.Fits d.pool) {batch : List Replacement}
    (h : prepareAll lib definer undo d patches = (.ok (batch, undo'), d')) :
    ∀ u ∈ undo', u.Fits d'.pool := by
  induction patches generalizing d undo batch with
  | nil =>
    cases h
    exact hundo
  | cons patch rest ih =>
    obtain ⟨hpatch, hrest⟩ := List.forall_mem_cons.mp hpatches
    obtain ⟨u, back, d₁, others, hprepare, hall, -⟩ := prepareAll_cons_eq_ok h
    have hback := fits_of_prepare hpatch hprepare
    exact ih hrest (fits_append hundo (evolves_prepare hpatch hprepare) hback) hall

theorem evolves_applyAll (hpatches : ∀ patch ∈ patches, patch.EditsOnly Pool.Evolves)
    {result : Except Failure (List ClassId)}
    (h : applyAll lib definer patches d = (result, d')) : d.pool.Evolves d'.pool := by
  rw [applyAll] at h
  split at h
  · next hall =>
    cases h
    exact evolves_prepareAll hpatches (List.forall_mem_nil _) hall
  · next batch undo d₁ hall =>
    have hevolves := evolves_prepareAll hpatches (List.forall_mem_nil _) hall
    rcases hredefine : d₁.bridge.redefine d₁.machine batch with ⟨outcome, bridge, machine⟩
    rw [hredefine] at h
    cases outcome with
    | ok classes =>
      cases h
      exact hevolves
    | error cause =>
      cases h
      have hfits := fits_of_prepareAll hpatches (List.forall_mem_nil _) hall
      exact hevolves.trans (evolves_undoAll (d := { d₁ with bridge, machine }) hfits)

theorem evolves_applyLive (hpatch : patch.EditsOnly Pool.Evolves) {result : Except Failure ClassId}
    (h : applyLive lib definer patch d = (result, d')) : d.pool.Evolves d'.pool := by
  rw [applyLive] at h
  split at h
  · cases h
    exact .refl
  · next cls _ =>
    have hsound := sound_toLiveClass (σ := σ) patch.target cls
    split at h
    · next htransform =>
      cases h
      exact evolves_transform hpatch hsound htransform
    · next htransform =>
      split at h <;> cases h <;> exact evolves_transform hpatch hsound htransform

end Deployment

/-- What an operation of an engine does to the pool has a history. -/
theorem Operation.evolves {op : Operation σ} {d d' : Deployment σ}
    (hop : ∀ patch ∈ op.patches, patch.EditsOnly Pool.Evolves) {result : Except Failure Unit}
    (h : op.run lib definer d = (result, d')) : d.pool.Evolves d'.pool := by
  obtain rfl : (op.run lib definer d).2 = d' := congrArg Prod.snd h
  cases op with
  | apply patch redefine =>
    have hpatch := hop patch List.mem_cons_self
    cases redefine with
    | true =>
      have hlive : d.applyLive lib definer patch = (_, _) := rfl
      exact Deployment.evolves_applyLive hpatch hlive
    | false =>
      exact Deployment.evolves_transform hpatch
        (Deployment.sound_toNewClass lib definer patch.target) rfl
  | image patch =>
    exact Deployment.evolves_transform (hop patch List.mem_cons_self)
      (Deployment.sound_toImage patch.target) rfl
  | definition patch =>
    have hprepare : d.prepare lib definer patch = (_, _) := rfl
    exact Deployment.evolves_prepare (hop patch List.mem_cons_self) hprepare
  | applyAll patches =>
    have hall : d.applyAll lib definer patches = (_, _) := rfl
    exact Deployment.evolves_applyAll hop hall

end

/-! ### Histories -/

/-- One pool leads to another by what can be done with a pool, from outside and by transformations,
whatever its sources have become in the meantime. -/
inductive Pool.Leads : Pool → Pool → Prop where
  | refl (p : Pool) : Leads p p
  | trans {p q r : Pool} : Leads p q → Leads q r → Leads p r
  | append (p : Pool) (source : Nat) : Leads p (p.append source)
  | get {p q : Pool} {lib : Library} {name : String} {id : RecordId} :
    p.get lib name = .ok (id, q) → Leads p q
  | getOrNone {p q : Pool} {lib : Library} {name : String} {found : Option RecordId} :
    p.get? lib name = .ok (found, q) → Leads p q
  | insert {p q : Pool} {decl : ClassDecl} {id : RecordId} :
    p.insert decl = .ok (id, q) → Leads p q
  | edit (p : Pool) (id : RecordId) (change : Editable.Change) :
    Leads p (p.modify id fun r ↦ { r with type := r.type.after change })
  | resolveNames {p q : Pool} {lib : Library} {names : List String}
    {result : Except Error (List Ty)} : p.resolveNames lib names = (result, q) → Leads p q
  | resolveReflected {p q : Pool} {lib : Library} {types : List Reflected}
    {result : Except Error (List Ty)} : p.resolveReflected lib types = (result, q) → Leads p q
  | resolve {p q : Pool} {lib : Library} {σ : Type} {patch : Patch σ} {t : Editable}
    {result : Except Error (Option MethodId)} : patch.resolve lib p t = (result, q) → Leads p q
  | operate {lib : Library} {definer : Definer} {σ : Type} {op : Operation σ} {d d' : Deployment σ}
    {result : Except Failure Unit} :
    (∀ patch ∈ op.patches, ∀ lib method (e : Editing σ), ∃ changes,
      (patch.transform lib method e).2.type = e.type.afterAll changes) →
    (∀ patch ∈ op.patches, ∀ lib method (e : Editing σ),
      Leads e.pool (patch.transform lib method e).2.pool) →
    op.run lib definer d = (result, d') → Leads d.pool d'.pool

namespace Pool

variable {p q : Pool}

/-- An operation whose patches edit types only, and have histories beside that, leads on. -/
theorem Leads.run {σ : Type} {lib : Library} {definer : Definer} {op : Operation σ}
    {d d' : Deployment σ} {result : Except Failure Unit}
    (hop : ∀ patch ∈ op.patches, patch.EditsOnly Leads)
    (h : op.run lib definer d = (result, d')) : d.pool.Leads d'.pool :=
  .operate (fun patch hpatch lib method e ↦ (hop patch hpatch lib method e).1)
    (fun patch hpatch lib method e ↦ (hop patch hpatch lib method e).2) h

/-- A history comes down to steps. -/
theorem Leads.evolves (h : p.Leads q) : p.Evolves q := by
  induction h with
  | refl => exact .refl
  | trans _ _ ih ih' => exact ih.trans ih'
  | append p source => exact .single (.append p source)
  | get h => exact evolves_get? (get_eq_ok.mp h)
  | getOrNone h => exact evolves_get? h
  | insert h => exact evolves_insert h
  | edit p id change => exact .single (.modify fun record _ ↦ record.type.becomes_after change)
  | resolveNames h => exact (loads_resolveAll h).evolves
  | resolveReflected h => exact (loads_resolveAll h).evolves
  | resolve h => exact (Patch.loads_resolve h).evolves
  | operate htypes _ h ih =>
    refine Operation.evolves (fun patch hpatch lib method e ↦ ?_) h
    exact ⟨htypes patch hpatch lib method e, ih patch hpatch lib method e⟩

end Pool

end Hotswap
