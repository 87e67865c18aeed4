import Hotswap.Proofs.ScriptHistories

/-!
# Frozen records

The types in the records of a pool have gone through turns only, whatever was done with the pool. So
a record that is found frozen holds a finalized type, and an engine that gives an image has frozen
the record with that image.
-/

namespace Hotswap

namespace Pool

variable {p q : Pool}

/-- The types of all records come from thawed ones by turns. -/
def Arisen (p : Pool) : Prop :=
  ∀ id record, p.record? id = some record →
    ∃ c turns, record.type = (Editable.ofDecl c).undergoAll turns

theorem arisen_new (classpath : Classpath) : (new classpath).Arisen := by
  intro id record hrecord
  cases hrecord

theorem Step.arisen (h : p.Step q) (hp : p.Arisen) : q.Arisen := by
  intro id record hrecord
  cases h with
  | append source => exact hp id record hrecord
  | @bind decl hnone =>
    rw [bind_of_none hnone] at hrecord
    rcases List.mem_append.mp (List.mem_of_getElem? hrecord) with hold | hnew
    · obtain ⟨i, hi⟩ := List.getElem?_of_mem hold
      exact hp ⟨i⟩ record hi
    · cases List.mem_singleton.mp hnew
      exact ⟨decl, [], rfl⟩
  | @modify other f hf =>
    by_cases hid : other = id
    · subst hid
      rw [record?_modify_self, Option.map_eq_some_iff] at hrecord
      obtain ⟨old, hold, rfl⟩ := hrecord
      obtain ⟨c, turns, hturns⟩ := hp other old hold
      obtain ⟨-, turns', hturns'⟩ := hf old hold
      refine ⟨c, turns ++ turns', ?_⟩
      rw [hturns', hturns, Editable.undergoAll_append]
    · rw [record?_modify_of_ne p f hid] at hrecord
      exact hp id record hrecord

theorem Evolves.arisen (h : p.Evolves q) (hp : p.Arisen) : q.Arisen := by
  induction h with
  | refl => exact hp
  | tail _ hstep ih => exact hstep.arisen ih

/-- The record of a name holds a type that is frozen with an image. -/
def HoldsFinal (p : Pool) (name : String) (image : List UInt8) : Prop :=
  ∃ id record, p.bound? name = some id ∧ p.record? id = some record ∧ record.type.Final image

end Pool

/-! ### Images that an engine gives -/

namespace Deployment

variable {σ : Type} {lib : Library} {definer : Definer} {patch : Patch σ} {d d' : Deployment σ}

/-- A patch that gives an image has frozen the record of its target with it. -/
theorem holdsFinal_of_transform (hpatch : patch.EditsOnly Pool.Evolves) {image : List UInt8}
    {undo : Undo} (h : transform lib patch (toImage patch.target) d = (.ok (image, undo), d')) :
    d'.pool.HoldsFinal patch.target image := by
  obtain ⟨p, id, record, method, q, e, type, after, hget, hrecord, -, hresolve, hrun, hfinal, -,
    rfl⟩ := transform_eq_ok h
  -- The record has stayed where it was found, through resolving and through the transformation.
  have hpool : q.Evolves e.pool := by
    have htransform := (hpatch lib method ⟨.ofDecl record.type.decl, q, d.host⟩).2
    rw [hrun] at htransform
    exact htransform
  have hevolves : p.Evolves e.pool := (Patch.loads_resolve hresolve).evolves.trans hpool
  have hbound := hevolves.bound? (Pool.bound?_get? hget)
  obtain ⟨held, hheld, -⟩ := hevolves.record? hrecord
  obtain ⟨rfl, hfinalize⟩ := toImage_eq hfinal
  refine ⟨id, { held with type }, ?_, ?_, Editable.final_of_finalize (hfinalize image rfl)⟩
  · show (e.pool.modify id _).bound? patch.target = some id
    rw [Pool.bound?_modify, hbound]
  · show (e.pool.modify id _).record? id = _
    rw [Pool.record?_modify_self, hheld]
    rfl

theorem holdsFinal_of_image (hpatch : patch.EditsOnly Pool.Evolves) {image : List UInt8}
    (h : d.image lib patch = (.ok image, d')) : d'.pool.HoldsFinal patch.target image := by
  rw [Deployment.image] at h
  rcases htransform : transform lib patch (toImage patch.target) d with ⟨made, d₁⟩
  rw [htransform] at h
  cases made with
  | error e => cases h
  | ok made =>
    cases h
    exact holdsFinal_of_transform hpatch htransform

theorem holdsFinal_of_definition (hpatch : patch.EditsOnly Pool.Evolves) {u : Replacement}
    (h : d.definition lib definer patch = (.ok u, d')) :
    d'.pool.HoldsFinal patch.target u.image := by
  rw [definition] at h
  rcases hprepare : prepare lib definer patch d with ⟨made, d₁⟩
  rw [hprepare] at h
  cases made with
  | error e => cases h
  | ok made =>
    cases h
    exact holdsFinal_of_transform hpatch (prepare_eq_ok hprepare).2

end Deployment

namespace Pool

variable {p : Pool}

/-- Frozen means finalized. A type that is frozen after any turns was finalized by one of them, from
a thawed type, is final with the image that it got then, and has not changed since. The types in a
pool have gone through turns only and go on so, whatever is done with the pool, and an image that an
engine gives is that with which the record of the target is frozen. What finalizing comes to does
not depend on the depths that were declared before. -/
theorem Leads.frozen_final {classpath : Classpath} (h : (new classpath).Leads p) :
    (∀ c turns, ((Editable.ofDecl c).undergoAll turns).frozen = true →
      ∃ before rest image, turns = before ++ .change .finalize :: rest ∧
        ((Editable.ofDecl c).undergoAll before).frozen = false ∧
        ((Editable.ofDecl c).undergoAll before).finalize =
          (.ok image, (Editable.ofDecl c).undergoAll turns) ∧
        ((Editable.ofDecl c).undergoAll turns).Final image) ∧
    (∀ id record, p.record? id = some record →
      (∃ c turns, record.type = (Editable.ofDecl c).undergoAll turns) ∧
        (record.type.frozen = true ↔ ∃ image, record.type.Final image) ∧
        ∀ q, p.Leads q → ∃ record' turns, q.record? id = some record' ∧
          record'.type = record.type.undergoAll turns) ∧
    (∀ {σ : Type} (lib : Library) (definer : Definer) (patch : Patch σ) (d d' : Deployment σ) image,
      patch.EditsOnly Leads →
      d.image lib patch = (.ok image, d') ∨
        (∃ cls, d.definition lib definer patch = (.ok ⟨cls, image⟩, d')) →
      d'.pool.HoldsFinal patch.target image) ∧
    ∀ t t' : Editable, t.decl.withoutDepths = t'.decl.withoutDepths →
      t.finalize.1 = t'.finalize.1 := by
  refine ⟨fun _ _ ↦ Editable.final_of_frozen, ?_, ?_, fun _ _ ↦
    Editable.finalize_eq_of_withoutDepths_eq⟩
  · intro id record hrecord
    obtain ⟨c, turns, hturns⟩ := h.evolves.arisen (arisen_new classpath) id record hrecord
    refine ⟨⟨c, turns, hturns⟩, ⟨fun hfrozen ↦ ?_, ?_⟩, fun q hq ↦ ?_⟩
    · rw [hturns] at hfrozen ⊢
      obtain ⟨-, -, image, -, -, -, hfinal⟩ := Editable.final_of_frozen hfrozen
      exact ⟨image, hfinal⟩
    · rintro ⟨image, hfinal⟩
      exact (Editable.finalize_eq_ok hfinal.finalizes).1
    · obtain ⟨record', hrecord', -, turns', hturns'⟩ := hq.evolves.record? hrecord
      exact ⟨record', turns', hrecord', hturns'⟩
  · rintro σ lib definer patch d d' image hpatch (hmade | ⟨cls, hmade⟩)
    · exact Deployment.holdsFinal_of_image (hpatch.mono fun _ _ ↦ Leads.evolves) hmade
    · exact Deployment.holdsFinal_of_definition (hpatch.mono fun _ _ ↦ Leads.evolves) hmade

/-- The class that was patched is frozen with an image. -/
theorem patchedPool_frozen_final :
    (new [0]).Leads patchedPool ∧ ∃ record image, patchedPool.record? ⟨1⟩ = some record ∧
      record.type.frozen = true ∧ record.type.Final image := by
  have hleads := leads_patchedPool
  have hfrozen : (patchedPool.record? ⟨1⟩).map (·.type.frozen) = some true := by cbv
  obtain ⟨record, hrecord, hfrozen⟩ := Option.map_eq_some_iff.mp hfrozen
  obtain ⟨-, hrecords, -⟩ := hleads.frozen_final
  obtain ⟨image, hfinal⟩ := (hrecords ⟨1⟩ record hrecord).2.1.mp hfrozen
  exact ⟨hleads, record, image, hrecord, hfrozen, hfinal⟩

end Pool

end Hotswap
