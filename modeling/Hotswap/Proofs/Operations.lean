import Mathlib
import Hotswap.Proofs.Scripts

/-!
# Operations that fail

An operation that fails changes no class of the pool and nothing in the machine. One case is
different: the capability takes the batch of a live patch and gives no class for it. The operation
then fails although the patch is no longer undone. A capability that gives the classes of its
batches never does that.
-/

namespace Hotswap

variable {σ : Type} {lib : Library} {definer : Definer}

/-- An operation of an engine. -/
inductive Operation (σ : Type) where
  | apply (patch : Patch σ) (redefine : Bool)
  | image (patch : Patch σ)
  | definition (patch : Patch σ)
  | applyAll (patches : List (Patch σ))

namespace Operation

/-- The patches of an operation, in the order in which they are applied. -/
def patches : Operation σ → List (Patch σ)
  | apply patch _ => [patch]
  | image patch => [patch]
  | definition patch => [patch]
  | applyAll patches => patches

/-- Runs an operation and tells whether it succeeds. -/
def run (lib : Library) (definer : Definer) (d : Deployment σ) :
    Operation σ → Except Failure Unit × Deployment σ
  | apply patch redefine =>
    let (result, d) := d.apply lib definer patch redefine
    (result.map fun _ ↦ (), d)
  | image patch =>
    let (result, d) := d.image lib patch
    (result.map fun _ ↦ (), d)
  | definition patch =>
    let (result, d) := d.definition lib definer patch
    (result.map fun _ ↦ (), d)
  | applyAll patches =>
    let (result, d) := d.applyAll lib definer patches
    (result.map fun _ ↦ (), d)

/-- Tells whether the capability takes the batch of a live patch and gives no class for it. -/
def isUnanswered (lib : Library) (definer : Definer) (d : Deployment σ) : Operation σ → Bool
  | apply patch true =>
    match d.targetClass definer patch with
    | .error _ => false
    | .ok cls =>
      match (d.transform lib patch (Deployment.toLiveClass patch.target cls)).1 with
      | .error _ => false
      | .ok (classes, _) => classes.isEmpty
  | _ => false

/-- Runs operations one after the other, whatever becomes of each. -/
def runAll (lib : Library) (definer : Definer) :
    List (Operation σ) → Deployment σ → Deployment σ
  | [], d => d
  | op :: rest, d => runAll lib definer rest (op.run lib definer d).2

/-- The patches of those operations that succeed, or stay without an answer, when the operations are
run one after the other. -/
def effective (lib : Library) (definer : Definer) :
    List (Operation σ) → Deployment σ → List (Patch σ)
  | [], _ => []
  | op :: rest, d =>
    (if (op.run lib definer d).1.isOk || op.isUnanswered lib definer d then op.patches else []) ++
      effective lib definer rest (op.run lib definer d).2

end Operation

/-! ## Batches -/

namespace Deployment

variable {patch : Patch σ} {patches : List (Patch σ)} {d d' : Deployment σ}

/-- Preparing a patch that fails keeps the pool and leaves the machine alone. -/
theorem prepare_error (hpatch : patch.Contained lib) {e : Failure}
    (h : prepare lib definer patch d = (.error e, d')) :
    e ≠ .aborted ∧ d.pool.Keeps lib d'.pool ∧ d'.machine = d.machine := by
  rw [prepare] at h
  split at h
  · next e' htarget =>
    cases h
    refine ⟨?_, .refl _, rfl⟩
    rw [targetClass] at htarget
    split at htarget
    · cases htarget
    · cases htarget
      exact Failure.noConfusion
  · rcases htransform : transform lib patch (toImage patch.target) d with ⟨result, d₁⟩
    rw [htransform] at h
    cases result with
    | ok made => cases h
    | error e' =>
      cases h
      exact transform_error hpatch (sound_toImage patch.target) htransform

/-- Preparing a patch that succeeds leaves the patched type behind and nothing else. -/
theorem prepare_ok (hpatch : patch.Contained lib) {u : Replacement} {undo : Undo}
    (h : prepare lib definer patch d = (.ok (u, undo), d')) :
    d'.machine = d.machine ∧
      ∃ type, patch.Succeeds lib (toImage patch.target) d u.image undo type d' := by
  rw [prepare] at h
  split at h
  · cases h
  · rcases htransform : transform lib patch (toImage patch.target) d with ⟨result, d₁⟩
    rw [htransform] at h
    cases result with
    | error e => cases h
    | ok made =>
      cases h
      obtain ⟨type, hsucceeds⟩ :=
        transform_ok hpatch (sound_toImage patch.target) htransform
      obtain ⟨held, before, after, _, hmachine, hfinal, _, hmachine'⟩ := hsucceeds.finalizes
      refine ⟨?_, type, hsucceeds⟩
      rw [← hmachine', (toImage_eq hfinal).1, hmachine]

/-- After one more patch, undoing it with those before it keeps what undoing those would have
kept, and what undoes it belongs to a record of the pool. -/
private theorem keeps_undoAll_append {undo : List Undo} {back : Undo} {type : Editable}
    (hundo : ∀ u ∈ undo, u.record.index < d.pool.size)
    (h : d.pool.Takes lib patch.target back type d'.pool) :
    (d.undoAll undo).pool.Keeps lib (d'.undoAll (undo ++ [back])).pool ∧
      ∀ u ∈ undo ++ [back], u.record.index < d'.pool.size := by
  have hback := keeps_restore h
  rw [undoAll_append]
  refine ⟨keeps_undoAll hback hundo, ?_⟩
  intro u hu
  rcases List.mem_append.mp hu with hold | hlast
  · have hsize := hback.size_le
    simp only [restore, Pool.size_modify] at hsize
    have := hundo u hold
    omega
  · rw [List.mem_singleton.mp hlast]
    exact h.lt_size

/-- If one of several patches cannot be prepared, those before it are undone and the machine is as
it was. -/
theorem prepareAll_error (hpatches : ∀ patch ∈ patches, patch.Contained lib) {undo : List Undo}
    (hundo : ∀ u ∈ undo, u.record.index < d.pool.size) {e : Failure}
    (h : prepareAll lib definer undo d patches = (.error e, d')) :
    (d.undoAll undo).pool.Keeps lib d'.pool ∧ d'.machine = d.machine := by
  induction patches generalizing d undo with
  | nil => cases h
  | cons patch rest ih =>
    obtain ⟨hpatch, hrest⟩ := List.forall_mem_cons.mp hpatches
    rw [prepareAll] at h
    split at h
    · next hprepare => exact absurd rfl (prepare_error hpatch hprepare).1
    · next d₁ hprepare =>
      obtain ⟨_, hkeeps, hmachine⟩ := prepare_error hpatch hprepare
      cases h
      exact ⟨keeps_undoAll hkeeps hundo, (machine_undoAll d₁ undo).trans hmachine⟩
    · next u back d₁ hprepare =>
      obtain ⟨hmachine, type, hsucceeds⟩ := prepare_ok hpatch hprepare
      obtain ⟨hkeeps, hundo'⟩ := keeps_undoAll_append hundo hsucceeds.takes
      split at h
      · cases h
      · next hall =>
        cases h
        obtain ⟨hkeeps', hmachine'⟩ := ih hrest hundo' hall
        exact ⟨hkeeps.trans hkeeps', hmachine'.trans hmachine⟩

/-- If several patches can be prepared they have made the classes of the pool one after the other,
and what they remembered undoes all of them. -/
theorem prepareAll_ok (hpatches : ∀ patch ∈ patches, patch.Contained lib) {undo undo' : List Undo}
    (hundo : ∀ u ∈ undo, u.record.index < d.pool.size) {batch : List Replacement}
    (h : prepareAll lib definer undo d patches = (.ok (batch, undo'), d')) :
    (d.undoAll undo).pool.Keeps lib (d'.undoAll undo').pool ∧ d'.machine = d.machine ∧
      Patch.MakesAll lib patches (d.pool.class? lib) (d'.pool.class? lib) := by
  induction patches generalizing d undo batch with
  | nil =>
    cases h
    exact ⟨.refl _, rfl, .nil⟩
  | cons patch rest ih =>
    obtain ⟨hpatch, hrest⟩ := List.forall_mem_cons.mp hpatches
    rw [prepareAll] at h
    split at h
    · cases h
    · cases h
    · next u back d₁ hprepare =>
      obtain ⟨hmachine, type, hsucceeds⟩ := prepare_ok hpatch hprepare
      obtain ⟨hkeeps, hundo'⟩ := keeps_undoAll_append hundo hsucceeds.takes
      split at h
      · next hall =>
        cases h
        obtain ⟨hkeeps', hmachine', hmakes⟩ := ih hrest hundo' hall
        exact ⟨hkeeps.trans hkeeps', hmachine'.trans hmachine, .cons hsucceeds.makes hmakes⟩
      · cases h

/-- A batch that fails changes no class and nothing in the machine, whichever patch fails it and
however often a target occurs. -/
theorem applyAll_error (hpatches : ∀ patch ∈ patches, patch.Contained lib) {e : Failure}
    (h : applyAll lib definer patches d = (.error e, d')) :
    d.pool.Keeps lib d'.pool ∧ d'.machine = d.machine := by
  rw [applyAll] at h
  split at h
  · next hall =>
    cases h
    exact prepareAll_error hpatches (List.forall_mem_nil _) hall
  · next batch undo d₁ hall =>
    obtain ⟨hkeeps, hmachine, _⟩ := prepareAll_ok hpatches (List.forall_mem_nil _) hall
    rcases hredefine : d₁.bridge.redefine d₁.machine batch with ⟨result, bridge, machine⟩
    rw [hredefine] at h
    cases result with
    | ok classes => cases h
    | error cause =>
      cases h
      refine ⟨?_, ?_⟩
      · rw [pool_undoAll d₁ { d₁ with bridge, machine } rfl]
        exact hkeeps
      · rw [machine_undoAll]
        exact (Bridge.redefine_eq_error hredefine).trans hmachine

/-- A batch that succeeds has made the classes of the pool, patch by patch. -/
theorem applyAll_ok (hpatches : ∀ patch ∈ patches, patch.Contained lib) {classes : List ClassId}
    (h : applyAll lib definer patches d = (.ok classes, d')) :
    Patch.MakesAll lib patches (d.pool.class? lib) (d'.pool.class? lib) := by
  rw [applyAll] at h
  split at h
  · cases h
  · next batch undo d₁ hall =>
    obtain ⟨_, _, hmakes⟩ := prepareAll_ok hpatches (List.forall_mem_nil _) hall
    rcases hredefine : d₁.bridge.redefine d₁.machine batch with ⟨result, bridge, machine⟩
    rw [hredefine] at h
    cases result with
    | ok _ =>
      cases h
      exact hmakes
    | error _ => cases h

/-! ## Live patches -/

/-- What a live patch leaves behind for which the capability gives no class: the bridge and the
machine are as the capability left them, and the record of the target keeps the patched type, which
is no longer undone although what the patch remembered would undo it. -/
structure Strands (lib : Library) (definer : Definer) (patch : Patch σ) (cls : ClassId)
    (image : List UInt8) (undo : Undo) (type : Editable) (d d' : Deployment σ) : Prop where
  target : d.targetClass definer patch = .ok cls
  answer : d.bridge.redefine d.machine [⟨cls, image⟩] = (.ok [], d'.bridge, d'.machine)
  finalized : type.frozen = true ∧ type.decl.encode = .ok image
  makes : patch.Makes lib (d.pool.class? lib) (d'.pool.class? lib)
  held : d'.pool.bound? patch.target = some undo.record ∧
    d'.pool.record? undo.record = some ⟨type, false⟩
  keeps_iff : d.pool.Keeps lib d'.pool ↔ type.decl = undo.snapshot
  undone : d.pool.Keeps lib (d'.restore undo).pool

/-- A transformed type whose image the capability took without giving a class. -/
private theorem strands_of_transform (hpatch : patch.Contained lib) {cls : ClassId} {undo : Undo}
    (htarget : d.targetClass definer patch = .ok cls)
    (h : transform lib patch (toLiveClass patch.target cls) d = (.ok ([], undo), d')) :
    ∃ image type, Strands lib definer patch cls image undo type d d' := by
  obtain ⟨type, hsucceeds⟩ := transform_ok hpatch (sound_toLiveClass patch.target cls) h
  obtain ⟨held, before, after, hbridge, hmachine, hfinal, hbridge', hmachine'⟩ :=
    hsucceeds.finalizes
  obtain ⟨image, hfinalize, hanswer, _⟩ := toLiveClass_eq_ok hfinal
  rw [hbridge, hmachine, hbridge', hmachine'] at hanswer
  have htakes := hsucceeds.takes
  refine ⟨image, type, htarget, hanswer, Editable.finalize_eq_ok hfinalize, hsucceeds.makes,
    ⟨htakes.bound?, htakes.record?⟩, htakes.keeps_iff, keeps_restore htakes⟩

/-- What becomes of a live patch: it fails and is undone, the capability gives no class for it, or
it succeeds. -/
theorem applyLive_cases (hpatch : patch.Contained lib) {result : Except Failure ClassId}
    (h : applyLive lib definer patch d = (result, d')) :
    (∃ e, result = .error e ∧ (Operation.apply patch true).isUnanswered lib definer d = false ∧
      d.pool.Keeps lib d'.pool ∧ d'.machine = d.machine) ∨
    (result = .error (.error (.redefinition .empty)) ∧
      (Operation.apply patch true).isUnanswered lib definer d = true ∧
      ∃ cls image undo type, Strands lib definer patch cls image undo type d d') ∨
    (∃ id, result = .ok id ∧
      (Operation.apply patch true).isUnanswered lib definer d = false ∧
      patch.Makes lib (d.pool.class? lib) (d'.pool.class? lib)) := by
  rw [applyLive] at h
  split at h
  · next e htarget =>
    cases h
    refine .inl ⟨e, rfl, ?_, .refl _, rfl⟩
    simp only [Operation.isUnanswered, htarget]
  · next cls htarget =>
    split at h
    · next e d₁ htransform =>
      cases h
      have hfailed := transform_error hpatch (sound_toLiveClass patch.target cls) htransform
      refine .inl ⟨e, rfl, ?_, hfailed.2⟩
      simp only [Operation.isUnanswered, htarget, htransform]
    · next classes undo d₁ htransform =>
      cases classes with
      | nil =>
        cases h
        obtain ⟨image, type, hstrands⟩ := strands_of_transform hpatch htarget htransform
        refine .inr (.inl ⟨rfl, ?_, cls, image, undo, type, hstrands⟩)
        simp only [Operation.isUnanswered, htarget, htransform, List.isEmpty_nil]
      | cons first rest =>
        rw [List.getLast?_cons] at h
        cases h
        obtain ⟨type, hsucceeds⟩ :=
          transform_ok hpatch (sound_toLiveClass patch.target cls) htransform
        refine .inr (.inr ⟨_, rfl, ?_, hsucceeds.makes⟩)
        simp only [Operation.isUnanswered, htarget, htransform, List.isEmpty_cons]

end Deployment

namespace Operation

variable {op : Operation σ} {ops : List (Operation σ)} {d d' : Deployment σ}

/-- A transformation with its finalizer either fails and keeps the pool, or makes one class. -/
private theorem transform_outcome {α : Type} {patch : Patch σ} {f : Finalizer σ α}
    (hpatch : patch.Contained lib) (hf : f.Sound) {result : Except Failure (α × Undo)}
    (h : d.transform lib patch f = (result, d')) :
    (∃ e, result = .error e ∧ d.pool.Keeps lib d'.pool ∧ d'.machine = d.machine) ∨
      ∃ made, result = .ok made ∧
        Patch.MakesAll lib [patch] (d.pool.class? lib) (d'.pool.class? lib) := by
  cases result with
  | error e => exact .inl ⟨e, rfl, (Deployment.transform_error hpatch hf h).2⟩
  | ok made =>
    obtain ⟨type, hsucceeds⟩ := Deployment.transform_ok hpatch hf h
    exact .inr ⟨made, rfl, hsucceeds.makes.all⟩

/-- An operation either fails and changes no class and nothing in the machine, or stays without an
answer, or succeeds and makes the classes of its patches. -/
theorem run_cases (hop : ∀ patch ∈ op.patches, patch.Contained lib) {result : Except Failure Unit}
    (h : op.run lib definer d = (result, d')) :
    (∃ e, result = .error e ∧ op.isUnanswered lib definer d = false ∧
      d.pool.Keeps lib d'.pool ∧ d'.machine = d.machine) ∨
    (result = .error (.error (.redefinition .empty)) ∧ op.isUnanswered lib definer d = true ∧
      ∃ patch cls image undo type, op = .apply patch true ∧
        Deployment.Strands lib definer patch cls image undo type d d') ∨
    (result = .ok () ∧ op.isUnanswered lib definer d = false ∧
      Patch.MakesAll lib op.patches (d.pool.class? lib) (d'.pool.class? lib)) := by
  cases op with
  | apply patch redefine =>
    have hpatch := hop patch List.mem_cons_self
    cases redefine with
    | true =>
      rcases hlive : d.applyLive lib definer patch with ⟨outcome, d₁⟩
      simp only [run, Deployment.apply, if_true, hlive] at h
      rcases Deployment.applyLive_cases hpatch hlive with ⟨e, he, hanswer, hkeeps⟩ |
        ⟨he, hanswer, hstrands⟩ | ⟨id, hid, hanswer, hmakes⟩
      · cases he
        cases h
        exact .inl ⟨e, rfl, hanswer, hkeeps⟩
      · cases he
        cases h
        obtain ⟨cls, image, undo, type, hstrands⟩ := hstrands
        exact .inr (.inl ⟨rfl, hanswer, patch, cls, image, undo, type, rfl, hstrands⟩)
      · cases hid
        cases h
        exact .inr (.inr ⟨rfl, hanswer, hmakes.all⟩)
    | false =>
      rcases htransform : d.transform lib patch (Deployment.toNewClass lib definer patch.target)
        with ⟨outcome, d₁⟩
      simp only [run, Deployment.apply, Bool.false_eq_true, if_false, Deployment.applyNew,
        htransform] at h
      rcases transform_outcome hpatch (Deployment.sound_toNewClass lib definer patch.target)
        htransform with ⟨e, he, hkeeps⟩ | ⟨made, hmade, hmakes⟩
      · cases he
        cases h
        exact .inl ⟨e, rfl, rfl, hkeeps⟩
      · cases hmade
        cases h
        exact .inr (.inr ⟨rfl, rfl, hmakes⟩)
  | image patch =>
    have hpatch := hop patch List.mem_cons_self
    rcases htransform : d.transform lib patch (Deployment.toImage patch.target) with ⟨outcome, d₁⟩
    simp only [run, Deployment.image, htransform] at h
    rcases transform_outcome hpatch (Deployment.sound_toImage patch.target) htransform with
      ⟨e, he, hkeeps⟩ | ⟨made, hmade, hmakes⟩
    · cases he
      cases h
      exact .inl ⟨e, rfl, rfl, hkeeps⟩
    · cases hmade
      cases h
      exact .inr (.inr ⟨rfl, rfl, hmakes⟩)
  | definition patch =>
    have hpatch := hop patch List.mem_cons_self
    rcases hprepare : d.prepare lib definer patch with ⟨outcome, d₁⟩
    simp only [run, Deployment.definition, hprepare] at h
    cases outcome with
    | error e =>
      cases h
      exact .inl ⟨e, rfl, rfl, (Deployment.prepare_error hpatch hprepare).2⟩
    | ok made =>
      cases h
      obtain ⟨_, type, hsucceeds⟩ := Deployment.prepare_ok hpatch hprepare
      exact .inr (.inr ⟨rfl, rfl, hsucceeds.makes.all⟩)
  | applyAll patches =>
    rcases hall : d.applyAll lib definer patches with ⟨outcome, d₁⟩
    simp only [run, hall] at h
    cases outcome with
    | error e =>
      cases h
      exact .inl ⟨e, rfl, rfl, Deployment.applyAll_error hop hall⟩
    | ok classes =>
      cases h
      exact .inr (.inr ⟨rfl, rfl, Deployment.applyAll_ok hop hall⟩)

/-- However operations follow each other, the classes of the pool are those that the patches of the
effective ones make, one after the other. -/
theorem makesAll_effective (hops : ∀ op ∈ ops, ∀ patch ∈ op.patches, patch.Contained lib)
    (d : Deployment σ) :
    Patch.MakesAll lib (effective lib definer ops d) (d.pool.class? lib)
      ((runAll lib definer ops d).pool.class? lib) := by
  induction ops generalizing d with
  | nil => exact .nil
  | cons op rest ih =>
    obtain ⟨hop, hrest⟩ := List.forall_mem_cons.mp hops
    rcases hrun : op.run lib definer d with ⟨result, d₁⟩
    simp only [effective, runAll, hrun]
    refine Patch.MakesAll.append ?_ (ih hrest d₁)
    rcases run_cases hop hrun with ⟨e, he, hanswer, hkeeps, _⟩ |
      ⟨_, hanswer, patch, cls, image, undo, type, hpatch, hstrands⟩ | ⟨hok, _, hmakes⟩
    · simp only [he, hanswer, Except.isOk, Except.toBool, Bool.or_self, Bool.false_eq_true,
        if_false]
      rw [← funext hkeeps.class?]
      exact .nil
    · subst hpatch
      rw [hanswer, Bool.or_true, if_pos rfl]
      exact hstrands.makes.all
    · simp only [hok, Except.isOk, Except.toBool, Bool.true_or, if_true]
      exact hmakes

/-- An operation that fails changes no class of the pool and nothing in the machine, unless it is a
live patch that stays without an answer. That one fails and leaves its target patched; the pool is
kept only if the patch has changed nothing. However operations follow each other, the classes of the
pool are those that the patches of the successful ones, and of those without an answer, make one
after the other. -/
theorem failed_keeps_unless_unanswered
    (hops : ∀ op ∈ ops, ∀ patch ∈ op.patches, patch.Contained lib) :
    (∀ op ∈ ops, ∀ (d d' : Deployment σ) (e : Failure),
      op.run lib definer d = (.error e, d') → op.isUnanswered lib definer d = false →
        d.pool.Keeps lib d'.pool ∧ d'.machine = d.machine) ∧
    (∀ op ∈ ops, ∀ d : Deployment σ, op.isUnanswered lib definer d = true →
      ∃ patch cls image undo type d', op = .apply patch true ∧
        op.run lib definer d = (.error (.error (.redefinition .empty)), d') ∧
        Deployment.Strands lib definer patch cls image undo type d d') ∧
    ∀ d : Deployment σ, Patch.MakesAll lib (effective lib definer ops d) (d.pool.class? lib)
      ((runAll lib definer ops d).pool.class? lib) := by
  refine ⟨?_, ?_, makesAll_effective hops⟩
  · intro op hop d d' e hrun hanswered
    rcases run_cases (hops op hop) hrun with ⟨_, _, _, hkeeps⟩ | ⟨_, hanswer, _⟩ | ⟨hok, _, _⟩
    · exact hkeeps
    · rw [hanswered] at hanswer
      cases hanswer
    · cases hok
  · intro op hop d hunanswered
    rcases hrun : op.run lib definer d with ⟨result, d'⟩
    rcases run_cases (hops op hop) hrun with ⟨_, _, hanswer, _⟩ |
      ⟨hresult, _, patch, cls, image, undo, type, hpatch, hstrands⟩ | ⟨_, hanswer, _⟩
    · rw [hunanswered] at hanswer
      cases hanswer
    · exact ⟨patch, cls, image, undo, type, d', hpatch, hresult ▸ rfl, hstrands⟩
    · rw [hunanswered] at hanswer
      cases hanswer

/-- A class with a method "n" that gives a number. -/
def sampleClass (n : Int32) : ClassDecl :=
  ⟨Flag.visible, "k.P", none, [],
    [⟨Flag.static, "n", ⟨[], .prim .int⟩, some ⟨0, 1, [.const (.int n), .retValue]⟩⟩]⟩

/-- A source with such a class. -/
def sampleLibrary : Library := ⟨#[(Source.newMemory.store (sampleClass 1)).2]⟩

/-- An empty pool and a machine that has loaded the class, with a capability that gives no class. -/
def sampleDeployment : Deployment Log where
  pool := .new [0]
  bridge := .new BridgeKind.empty.agent
  machine := match (Machine.new .standard [0]).load sampleLibrary "k.P" with
    | .ok (_, machine) => machine
    | .error _ => .new .standard [0]
  host := #[]

/-- A patch that makes "n" give a number, and goes on with more edits. -/
def samplePatch (n : Int32) (more : List Edit) : Patch Log :=
  ⟨"k.P", some "n", .unspecified,
    scripted "k.P" (.setBody .resolved [.const (.int n), .retValue] :: more)⟩

/-- A batch that patches the class twice, of which the second patch fails. -/
def sampleBatch : Operation Log :=
  .applyAll [samplePatch 2 [], samplePatch 3 [.fail "refused"]]

/-- A live patch of the class. -/
def sampleLive : Operation Log := .apply (samplePatch 2 []) true

private theorem contained_samplePatch (n : Int32) {more : List Edit} (h : Edit.AreSparing more) :
    (samplePatch n more).Contained lib :=
  Patch.contained_scripted _ _ _ ⟨trivial, h⟩

private theorem contained_samples :
    ∀ op ∈ [sampleBatch, sampleLive], ∀ patch ∈ op.patches, patch.Contained lib := by
  have hfirst : (samplePatch 2 []).Contained lib := contained_samplePatch 2 trivial
  have hsecond : (samplePatch 3 [.fail "refused"]).Contained lib :=
    contained_samplePatch 3 ⟨trivial, trivial⟩
  simp only [List.forall_mem_cons, sampleBatch, sampleLive, patches]
  exact ⟨⟨hfirst, hsecond, List.forall_mem_nil _⟩, ⟨hfirst, List.forall_mem_nil _⟩,
    List.forall_mem_nil _⟩

/-- The batch fails and is undone; the live patch stays without an answer, fails and is not. -/
theorem sample_failed_keeps :
    (∃ e d', sampleBatch.run sampleLibrary .ofMachine sampleDeployment = (.error e, d') ∧
      sampleDeployment.pool.Keeps sampleLibrary d'.pool ∧
      d'.machine = sampleDeployment.machine) ∧
    ∃ e d', sampleLive.run sampleLibrary .ofMachine sampleDeployment = (.error e, d') ∧
      ¬ sampleDeployment.pool.Keeps sampleLibrary d'.pool := by
  obtain ⟨hfailed, hunanswered, _⟩ :=
    @failed_keeps_unless_unanswered Log sampleLibrary .ofMachine _ contained_samples
  constructor
  · have hresult : (sampleBatch.run sampleLibrary .ofMachine sampleDeployment).1 =
        .error (.error (.transform "k.P" (.custom "refused"))) := by cbv
    rcases hrun : sampleBatch.run sampleLibrary .ofMachine sampleDeployment with ⟨result, d'⟩
    rw [hrun] at hresult
    subst hresult
    exact ⟨_, d', rfl, hfailed _ List.mem_cons_self _ _ _ hrun rfl⟩
  · obtain ⟨_, _, _, _, _, d', _, hrun, _⟩ :=
      hunanswered sampleLive (List.mem_cons_of_mem _ List.mem_cons_self) sampleDeployment (by cbv)
    refine ⟨_, d', hrun, ?_⟩
    intro hkeeps
    have hclass := hkeeps.class? "k.P"
    have hbefore : sampleDeployment.pool.class? sampleLibrary "k.P" = some (sampleClass 1) := by cbv
    have hafter : (sampleLive.run sampleLibrary .ofMachine sampleDeployment).2.pool.class?
        sampleLibrary "k.P" = some (sampleClass 2) := by cbv
    rw [hrun] at hafter
    rw [hbefore, hafter] at hclass
    exact absurd hclass (by decide)

end Operation

end Hotswap
