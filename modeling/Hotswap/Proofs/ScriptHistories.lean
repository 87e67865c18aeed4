import Hotswap.Proofs.PoolHistories

/-!
# Histories by scripts

A script edits the type in its hands by the operations of types, and the pool beside it by looking
names up and by inserting. Whatever relation all of that belongs to holds between the start and the
end of a script. So the patches of scripts have histories, of which a pool is an example.
-/

namespace Hotswap

section

variable {σ : Type} {lib : Library}

namespace Editing

/-- A relation to which everything belongs that a script does, except perhaps for inserting types
into the pool. -/
structure Follows (lib : Library) (R : Editing σ → Editing σ → Prop) : Prop where
  refl : ∀ e, R e e
  trans : ∀ {e e' e'' : Editing σ}, R e e' → R e' e'' → R e e''
  tried : ∀ {e : Editing σ} (change : Editable.Change) {type : Editable},
    e.type.tried change = .ok type → R e { e with type }
  get : ∀ {e : Editing σ} {name : String} {id : RecordId} {pool : Pool},
    e.pool.get lib name = .ok (id, pool) → R e { e with pool }

/-- Inserting types belongs to a relation as well. -/
def FollowsInserts (R : Editing σ → Editing σ → Prop) : Prop :=
  ∀ {e : Editing σ} {decl : ClassDecl} {id : RecordId} {pool : Pool},
    e.pool.insert decl = .ok (id, pool) → R e { e with pool }

variable {R : Editing σ → Editing σ → Prop}

theorem Follows.onMethod (hR : Follows lib R) {e : Editing σ} {resolved : Option MethodId}
    {choice : MethodChoice} {f : MethodId → Except Error Editable}
    (hf : ∀ id type, f id = .ok type → ∃ change, e.type.tried change = .ok type) :
    R e (e.onMethod resolved choice f).2 := by
  rw [Editing.onMethod]
  cases h : choice.get resolved >>= f with
  | error cause => exact hR.refl e
  | ok type =>
    obtain ⟨id, -, hid⟩ := bind_eq_ok.mp h
    obtain ⟨change, hchange⟩ := hf id type hid
    exact hR.tried change hchange

theorem Follows.forMethods (hR : Follows lib R)
    {f : MethodId → Editing σ → Except Failure Unit × Editing σ}
    (hf : ∀ id e, R e (f id e).2) (ids : List MethodId) (e : Editing σ) :
    R e (forMethods f ids e).2 := by
  induction ids generalizing e with
  | nil => exact hR.refl e
  | cons id rest ih =>
    have hid := hf id e
    rw [Editing.forMethods]
    rcases hrun : f id e with ⟨outcome, e₁⟩
    rw [hrun] at hid
    cases outcome with
    | ok _ => exact hR.trans hid (ih e₁)
    | error failure => exact hid

end Editing

mutual

/-- An edit does what belongs to a relation, if it inserts nothing or inserting belongs to it. -/
theorem Edit.follows_run {R : Editing σ → Editing σ → Prop} (hR : Editing.Follows lib R)
    (resolved : Option MethodId) : ∀ (edit : Edit), edit.IsSparing ∨ Editing.FollowsInserts R →
      ∀ e, R e (edit.run lib resolved e).2
  | .each edits, h, e => by
    have hmethods := hR.forMethods
      (fun id e ↦ Edit.follows_runAll hR (some id) edits h e) e.type.methodIds e
    rw [Edit.run]
    split
    · next hrun =>
      rw [hrun] at hmethods
      exact hmethods
    · next hrun =>
      rw [hrun] at hmethods
      exact hmethods
  | .addField f, _, e => by
    rw [Edit.run]
    split
    · next h => exact hR.tried (.addField f) h
    · exact hR.refl e
  | .addMethod m, _, e => by
    rw [Edit.run]
    split
    · next h => exact hR.tried (.addMethod m) (map_eq_ok.mpr ⟨_, h, rfl⟩)
    · exact hR.refl e
  | .finalize, _, e => by
    have hfinalize : R e { e with type := e.type.finalize.2 } := hR.tried .finalize rfl
    rw [Edit.run]
    split
    · next h =>
      rw [h] at hfinalize
      exact hfinalize
    · next h =>
      rw [h] at hfinalize
      exact hfinalize
  | .insertBefore _ s, _, _ => hR.onMethod fun id _ h ↦ ⟨.insertBefore id s, h⟩
  | .insertAfter _ s, _, _ => hR.onMethod fun id _ h ↦ ⟨.insertAfter id s, h⟩
  | .setBody _ code, _, _ => hR.onMethod fun id _ h ↦ ⟨.setBody id code, h⟩
  | .setFlags _ flags, _, _ => hR.onMethod fun id _ h ↦ ⟨.setFlags id flags, h⟩
  | .setLocals _ _, _, _ => hR.onMethod fun id _ h ↦ ⟨.changeBody id _, h⟩
  | .replaceBody _ _, _, _ => hR.onMethod fun id _ h ↦ ⟨.changeBody id _, h⟩
  | .refused (some _) _, _, _ => hR.onMethod nofun
  | .thaw, _, _ => hR.tried .thaw rfl
  | .poolGet n, _, e => by
    rw [Edit.run]
    cases h : e.pool.get lib n with
    | ok found => exact hR.get h
    | error cause => exact hR.refl e
  | .poolInsert c, hinserts, e => by
    rw [Edit.run]
    cases h : e.pool.insert c with
    | ok inserted => exact hinserts.elim False.elim fun hinserts ↦ hinserts h
    | error cause => exact hR.refl e
  | .method _, _, e => hR.refl e
  | .declared _ _, _, e => hR.refl e
  | .declaredBy _ _, _, e => hR.refl e
  | .isFrozen, _, e => hR.refl e
  | .name, _, e => hR.refl e
  | .decl, _, e => hR.refl e
  | .counts, _, e => hR.refl e
  | .fail _, _, e => hR.refl e
  | .abort, _, e => hR.refl e
  | .refused none _, _, e => hR.refl e

/-- A script does what belongs to a relation, if it inserts nothing or inserting belongs to it. -/
theorem Edit.follows_runAll {R : Editing σ → Editing σ → Prop} (hR : Editing.Follows lib R)
    (resolved : Option MethodId) : ∀ (edits : List Edit),
      Edit.AreSparing edits ∨ Editing.FollowsInserts R →
      ∀ e, R e (Edit.runAll lib resolved edits e).2
  | [], _, e => hR.refl e
  | edit :: rest, h, e => by
    rw [AreSparing] at h
    have hedit := Edit.follows_run hR resolved edit (h.imp_left And.left) e
    rw [Edit.runAll]
    rcases hrun : edit.run lib resolved e with ⟨outcome, e₁⟩
    rw [hrun] at hedit
    cases outcome with
    | ok _ =>
      exact hR.trans hedit (Edit.follows_runAll hR resolved rest (h.imp_left And.right) e₁)
    | error failure => exact hedit

end

/-- The type came by changes, and the pool around it has a history. -/
structure Editing.Leads (e e' : Editing σ) : Prop where
  type : ∃ changes, e'.type = e.type.afterAll changes
  pool : e.pool.Leads e'.pool

theorem Editing.follows_leads : Editing.Follows lib (Editing.Leads (σ := σ)) where
  refl e := ⟨⟨[], rfl⟩, .refl _⟩
  trans := by
    intro e e' e'' h h'
    obtain ⟨changes, htype⟩ := h.type
    obtain ⟨changes', htype'⟩ := h'.type
    refine ⟨⟨changes ++ changes', ?_⟩, h.pool.trans h'.pool⟩
    rw [htype', htype]
    exact List.foldl_append.symm
  tried := by
    intro e change type h
    refine ⟨⟨[change], ?_⟩, .refl _⟩
    show type = e.type.after change
    rw [Editable.after_eq_accept, h]
    rfl
  get h := ⟨⟨[], rfl⟩, .get h⟩

/-- The transformation of a script edits the type by its operations, and all else that it does with
the pool has a history. -/
theorem Patch.editsOnly_scripted (target : String) (method : Option String) (params : Parameters)
    (edits : List Edit) :
    Patch.EditsOnly Pool.Leads ⟨target, method, params, scripted target edits⟩ := by
  intro lib resolved e
  have hinserts : Editing.FollowsInserts (Editing.Leads (σ := Log)) :=
    fun h ↦ ⟨⟨[], rfl⟩, .insert h⟩
  have hrun : Editing.Leads { e with host := e.host.push (.transform target resolved) }
      (scripted target edits lib resolved e).2 :=
    Edit.follows_runAll Editing.follows_leads resolved edits (.inr hinserts) _
  exact ⟨hrun.type, hrun.pool⟩

theorem Patch.EditsOnly.mono {R S : Pool → Pool → Prop} (hRS : ∀ p q, R p q → S p q)
    {patch : Patch σ} (h : patch.EditsOnly R) : patch.EditsOnly S :=
  fun lib method e ↦ ⟨(h lib method e).1, hRS _ _ (h lib method e).2⟩

end

/-! ### A pool with a history -/

namespace Pool

open Operation

/-- A deployment of a pool that holds a class without members. -/
def insertedDeployment : Deployment Log :=
  { sampleDeployment with pool := ((new [0]).bind ⟨Flag.visible, "k.Q", none, [], []⟩).1 }

/-- A patch of another class, for its image. -/
def imageOperation : Operation Log := .image (samplePatch 2 [])

/-- The pool after that class was loaded and patched. -/
def patchedPool : Pool := (imageOperation.run sampleLibrary .ofMachine insertedDeployment).2.pool

theorem leads_patchedPool : (new [0]).Leads patchedPool := by
  have hinserted : (new [0]).Leads insertedDeployment.pool := .insert (insert_eq_ok.mpr ⟨rfl, rfl⟩)
  have hpatches : ∀ patch ∈ imageOperation.patches, patch.EditsOnly Leads :=
    List.forall_mem_singleton.mpr (Patch.editsOnly_scripted _ _ _ _)
  have hrun : imageOperation.run sampleLibrary .ofMachine insertedDeployment = (_, _) := rfl
  exact hinserted.trans (.run hpatches hrun)

end Pool

end Hotswap
