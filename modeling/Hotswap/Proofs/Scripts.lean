import Hotswap.Proofs.Rollback
import Hotswap.Session.Basic

/-!
# Scripts that spare the pool

A script changes the pool beside the type in its hands only where it inserts a type, and it ends
without a result only where it aborts. Any other script makes a contained patch.
-/

namespace Hotswap

variable {σ α : Type} {lib : Library}

mutual

/-- An edit neither aborts nor inserts a type into the pool. -/
def Edit.IsSparing : Edit → Prop
  | .each edits => Edit.AreSparing edits
  | .abort => False
  | .poolInsert _ => False
  | _ => True

/-- Edits neither abort nor insert a type into the pool. -/
def Edit.AreSparing : List Edit → Prop
  | [] => True
  | edit :: rest => edit.IsSparing ∧ Edit.AreSparing rest

end

namespace Editing

variable {β : Type} {e e' : Editing σ}

/-- An answer spares a pool that is kept. -/
theorem Spares.ok {a : α} (h : e.pool.Keeps lib e'.pool) : e.Spares lib (.ok a, e') :=
  ⟨by simp, h⟩

/-- An error spares a pool that is kept. -/
theorem Spares.error {cause : Error} (h : e.pool.Keeps lib e'.pool) :
    e.Spares lib ((.error (.error cause) : Except Failure α), e') :=
  ⟨by simp, h⟩

/-- A failure spares the pool whatever was expected in its place. -/
theorem Spares.failed {failure : Failure}
    (h : e.Spares lib ((.error failure : Except Failure α), e')) :
    e.Spares lib ((.error failure : Except Failure β), e') :=
  ⟨by simpa using h.1, h.2⟩

/-- What spares the pool after something that spared it has spared it since. -/
theorem Spares.after {a : α} {outcome : Except Failure β × Editing σ}
    (h : e.Spares lib (.ok a, e')) (hnext : e'.Spares lib outcome) : e.Spares lib outcome :=
  ⟨hnext.1, h.2.trans hnext.2⟩

/-- Taking over an edited type spares the pool. -/
theorem spares_edited (r : Except Error Editable) : e.Spares lib (e.edited r) := by
  cases r with
  | ok type => exact .ok (.refl _)
  | error cause => exact .error (.refl _)

/-- Answering a question spares the pool. -/
theorem spares_answered (r : Except Error EditAnswer) : e.Spares lib (e.answered r) := by
  cases r with
  | ok answer => exact .ok (.refl _)
  | error cause => exact .error (.refl _)

/-- Taking over a pool that has looked a name up spares the pool. -/
theorem spares_pooled_get (name : String) : e.Spares lib (e.pooled (e.pool.get lib name)) := by
  cases hget : e.pool.get lib name with
  | ok found => exact .ok (Pool.keeps_get hget)
  | error cause => exact .error (.refl _)

/-- What spares the pool for every method spares it for all of them. -/
theorem spares_forMethods {f : MethodId → Editing σ → Except Failure Unit × Editing σ}
    (hf : ∀ id (e : Editing σ), e.Spares lib (f id e)) (ids : List MethodId) (e : Editing σ) :
    e.Spares lib (forMethods f ids e) := by
  induction ids generalizing e with
  | nil => exact .ok (.refl _)
  | cons id rest ih =>
    have hid := hf id e
    rw [forMethods]
    rcases hrun : f id e with ⟨outcome, e₁⟩
    rw [hrun] at hid
    cases outcome with
    | ok _ => exact hid.after (ih e₁)
    | error failure => exact hid

end Editing

mutual

/-- A sparing edit spares the pool. -/
theorem Edit.spares_run (resolved : Option MethodId) :
    ∀ (edit : Edit), edit.IsSparing → ∀ e : Editing σ, e.Spares lib (edit.run lib resolved e)
  | .each edits, h, e => by
    have hmethods := Editing.spares_forMethods
      (fun id e ↦ Edit.spares_runAll (some id) edits h e) e.type.methodIds e
    rw [Edit.run]
    split
    · next hrun =>
      rw [hrun] at hmethods
      exact hmethods.after (.ok (.refl _))
    · next hrun =>
      rw [hrun] at hmethods
      exact hmethods.failed
  | .addField f, _, e => by
    rw [Edit.run]
    split
    · exact .ok (.refl _)
    · exact .error (.refl _)
  | .addMethod m, _, e => by
    rw [Edit.run]
    split
    · exact .ok (.refl _)
    · exact .error (.refl _)
  | .finalize, _, e => by
    rw [Edit.run]
    split
    · exact .ok (.refl _)
    · exact .error (.refl _)
  | .insertBefore _ _, _, _ => Editing.spares_edited _
  | .insertAfter _ _, _, _ => Editing.spares_edited _
  | .setBody _ _, _, _ => Editing.spares_edited _
  | .setFlags _ _, _, _ => Editing.spares_edited _
  | .setLocals _ _, _, _ => Editing.spares_edited _
  | .replaceBody _ _, _, _ => Editing.spares_edited _
  | .refused (some _) _, _, _ => Editing.spares_edited _
  | .method _, _, _ => Editing.spares_answered _
  | .declared _ _, _, _ => Editing.spares_answered _
  | .declaredBy _ _, _, _ => Editing.spares_answered _
  | .thaw, _, _ => .ok (.refl _)
  | .isFrozen, _, _ => .ok (.refl _)
  | .name, _, _ => .ok (.refl _)
  | .decl, _, _ => .ok (.refl _)
  | .counts, _, _ => .ok (.refl _)
  | .fail _, _, _ => .error (.refl _)
  | .refused none _, _, _ => .error (.refl _)
  | .poolGet n, _, _ => Editing.spares_pooled_get n

/-- Sparing edits spare the pool. -/
theorem Edit.spares_runAll (resolved : Option MethodId) :
    ∀ (edits : List Edit), Edit.AreSparing edits →
      ∀ e : Editing σ, e.Spares lib (Edit.runAll lib resolved edits e)
  | [], _, _ => .ok (.refl _)
  | edit :: rest, h, e => by
    rw [AreSparing] at h
    have hedit := Edit.spares_run resolved edit h.1 e
    rw [Edit.runAll]
    rcases hrun : edit.run lib resolved e with ⟨outcome, e₁⟩
    rw [hrun] at hedit
    cases outcome with
    | ok _ => exact hedit.after (Edit.spares_runAll resolved rest h.2 e₁)
    | error failure => exact hedit.failed

end

namespace Patch

variable (target : String) (method : Option String) (params : Parameters)

/-- A patch whose transformation is a sparing script is contained. -/
theorem contained_scripted {edits : List Edit} (h : Edit.AreSparing edits) :
    Patch.Contained lib ⟨target, method, params, scripted target edits⟩ :=
  fun resolved _ ↦ Edit.spares_runAll resolved edits h _

end Patch

end Hotswap
