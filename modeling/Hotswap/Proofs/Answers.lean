import Hotswap.Proofs.Operations

/-!
# Capabilities that answer

A capability answers if it gives the classes of the batches that it takes. That of a machine does.
With a bridge whose capabilities answer no operation stays without an answer: every operation that
fails is undone, and the classes of a pool are those that the successful operations have made.
-/

namespace Hotswap

variable {σ α : Type} {lib : Library} {definer : Definer}

/-- A capability gives the classes of every batch that it takes, in the order of the batch. -/
def Capability.Answers (c : Capability) : Prop :=
  ∀ (m m' : Machine) (batch : List Replacement) (classes : List ClassId),
    c m batch = .ok (classes, m') → classes = batch.map (·.cls)

/-- The capability of a bridge answers, and so does every capability that its agent gives. -/
structure Bridge.Answers (b : Bridge) : Prop where
  agent : ∀ {n : Nat} {m : Machine} {c : Capability}, b.agent n m = .ok c → c.Answers
  capability : ∀ {c : Capability}, b.capability = some c → c.Answers

/-- The capability of a machine answers. -/
theorem Machine.answers_capability : Machine.capability.Answers := by
  intro m m' batch classes h
  rw [capability, redefine] at h
  obtain ⟨decls, _, h⟩ := bind_eq_ok.mp h
  cases h
  rfl

namespace Bridge

/-- A new bridge to the machine itself answers. -/
theorem answers_new_self : (Bridge.new .self).Answers where
  agent := by
    intro n m c h
    simp only [new, Agent.self] at h
    split at h
    · cases h
      exact Machine.answers_capability
    · cases h
  capability := by
    intro c h
    cases h

/-- A bridge that answers gives an answering capability and answers from then on. -/
theorem Answers.obtain {b b' : Bridge} {m : Machine} {result : Except Error Capability}
    (hb : b.Answers) (h : b.obtain m = (result, b')) :
    b'.Answers ∧ ∀ c, result = .ok c → c.Answers := by
  rw [Bridge.obtain] at h
  split at h
  · next c hcapability =>
    cases h
    refine ⟨hb, ?_⟩
    intro c' hc
    cases hc
    exact hb.capability hcapability
  · next hnone =>
    split at h
    · next c hagent =>
      cases h
      have hc := hb.agent hagent
      refine ⟨⟨hb.agent, ?_⟩, ?_⟩
      · intro c' hc'
        cases hc'
        exact hc
      · intro c' hc'
        cases hc'
        exact hc
    · cases h
      refine ⟨⟨hb.agent, ?_⟩, ?_⟩
      · intro c hc
        rw [hnone] at hc
        cases hc
      · intro c hc
        cases hc

/-- A bridge that answers gives the classes of a batch and answers from then on. -/
theorem Answers.redefine {b b' : Bridge} {m m' : Machine} {batch : List Replacement}
    {result : Except Error (List ClassId)} (hb : b.Answers)
    (h : b.redefine m batch = (result, b', m')) :
    b'.Answers ∧ ∀ classes, result = .ok classes → classes = batch.map (·.cls) := by
  rw [Bridge.redefine] at h
  split at h
  · next hempty =>
    cases h
    refine ⟨hb, ?_⟩
    intro classes hclasses
    cases hclasses
    rw [List.isEmpty_iff.mp hempty]
    rfl
  · split at h
    · next hobtain =>
      cases h
      refine ⟨(hb.obtain hobtain).1, ?_⟩
      intro classes hclasses
      cases hclasses
    · next c b₁ hobtain =>
      obtain ⟨hb₁, hc⟩ := hb.obtain hobtain
      split at h
      · next hbatch =>
        cases h
        refine ⟨hb₁, ?_⟩
        intro classes hclasses
        cases hclasses
        exact hc c rfl _ _ _ _ hbatch
      · cases h
        refine ⟨hb₁, ?_⟩
        intro classes hclasses
        cases hclasses

end Bridge

namespace Deployment

variable {patch : Patch σ} {patches : List (Patch σ)} {f : Finalizer σ α}
  {d d' : Deployment σ}

/-- Whatever becomes of a patch, nothing but its finalizer uses the bridge and the machine. -/
theorem transform_invariant {P : Bridge → Machine → Prop}
    (hf : ∀ type (d : Deployment σ), P d.bridge d.machine →
      P (f type d).2.2.bridge (f type d).2.2.machine)
    (hd : P d.bridge d.machine) :
    P (transform lib patch f d).2.bridge (transform lib patch f d).2.machine := by
  have hheld : ∀ id type method (d : Deployment σ), P d.bridge d.machine →
      P (transformHeld lib patch f id type method d).2.bridge
        (transformHeld lib patch f id type method d).2.machine := by
    intro id type method d hd
    rw [transformHeld]
    rcases patch.transform lib method ⟨type, d.pool, d.host⟩ with ⟨result, e⟩
    dsimp only
    split
    · exact hd
    · exact hd
    · have hfinal := hf e.type { d with pool := e.pool, host := e.host } hd
      split
      · next hrun =>
        rw [hrun] at hfinal
        exact hfinal
      · next hrun =>
        rw [hrun] at hfinal
        exact hfinal
  rw [transform]
  split
  · exact hd
  · exact hd
  · dsimp only
    split
    · exact hd
    · split
      · exact hd
      · split
        · exact hd
        · exact hheld _ _ _ _ hd

/-- Whatever becomes of a patch, its bridge answers if the finalizer leaves it one that does. -/
theorem answers_transform
    (hf : ∀ type (d : Deployment σ), d.bridge.Answers → (f type d).2.2.bridge.Answers)
    (hd : d.bridge.Answers) : (transform lib patch f d).2.bridge.Answers :=
  transform_invariant (P := fun b _ ↦ b.Answers) hf hd

/-- Finalizing into an image leaves the bridge alone. -/
theorem answers_toImage (target : String) (type : Editable) (hd : d.bridge.Answers) :
    (toImage target type d).2.2.bridge.Answers := by
  rcases himage : toImage target type d with ⟨result, type', d'⟩
  rw [(toImage_eq himage).1]
  exact hd

/-- Defining a new class leaves the bridge alone. -/
theorem bridge_toNewClass (target : String) (type : Editable) (d : Deployment σ) :
    (toNewClass lib definer target type d).2.2.bridge = d.bridge := by
  rcases himage : toImage target type d with ⟨result, type', d'⟩
  obtain ⟨rfl, -⟩ := toImage_eq himage
  rw [toNewClass, himage]
  cases result with
  | error e => rfl
  | ok image =>
    dsimp only
    cases definer.define d'.machine lib image <;> rfl

/-- Redefining a live class leaves a bridge that answers. -/
theorem answers_toLiveClass (target : String) (cls : ClassId) (type : Editable)
    (hd : d.bridge.Answers) : (toLiveClass target cls type d).2.2.bridge.Answers := by
  have himage := answers_toImage target type hd
  rw [toLiveClass]
  split
  · next hrun =>
    rw [hrun] at himage
    exact himage
  · next image held d₁ hrun =>
    rw [hrun] at himage
    rcases hredefine : d₁.bridge.redefine d₁.machine [⟨cls, image⟩] with ⟨result, bridge, machine⟩
    exact (himage.redefine hredefine).1

/-- Undoing patches leaves the bridge alone. -/
theorem bridge_undoAll (d : Deployment σ) (undo : List Undo) :
    (d.undoAll undo).bridge = d.bridge := by
  rw [undoAll]
  induction undo.reverse generalizing d with
  | nil => rfl
  | cons u rest ih => exact ih (d.restore u)

/-- Making the image of a patch leaves the bridge and the machine alone. -/
theorem transform_toImage_untouched (target : String) (d : Deployment σ) :
    (transform lib patch (toImage target) d).2.bridge = d.bridge ∧
      (transform lib patch (toImage target) d).2.machine = d.machine := by
  refine transform_invariant (P := fun b m ↦ b = d.bridge ∧ m = d.machine) ?_ ⟨rfl, rfl⟩
  intro type d₁ hd₁
  rcases himage : toImage target type d₁ with ⟨result, type', d₂⟩
  rw [(toImage_eq himage).1]
  exact hd₁

/-- Preparing a patch leaves the bridge and the machine alone. -/
theorem prepare_untouched {result : Except Failure (Replacement × Undo)}
    (h : prepare lib definer patch d = (result, d')) :
    d'.bridge = d.bridge ∧ d'.machine = d.machine := by
  rw [prepare] at h
  split at h
  · cases h
    exact ⟨rfl, rfl⟩
  · cases h
    exact transform_toImage_untouched patch.target d

/-- Preparing patches leaves the bridge and the machine alone. -/
theorem prepareAll_untouched {undo : List Undo}
    {result : Except Failure (List Replacement × List Undo)}
    (h : prepareAll lib definer undo d patches = (result, d')) :
    d'.bridge = d.bridge ∧ d'.machine = d.machine := by
  induction patches generalizing d undo result with
  | nil =>
    cases h
    exact ⟨rfl, rfl⟩
  | cons patch rest ih =>
    rw [prepareAll] at h
    split at h
    · next hprepare =>
      cases h
      exact prepare_untouched hprepare
    · next d₁ hprepare =>
      cases h
      rw [bridge_undoAll, machine_undoAll]
      exact prepare_untouched hprepare
    · next d₁ hprepare =>
      obtain ⟨hbridge, hmachine⟩ := prepare_untouched hprepare
      rw [← hbridge, ← hmachine]
      split at h
      · next hall =>
        cases h
        exact ih hall
      · next hall =>
        cases h
        exact ih hall

/-- Preparing a patch leaves a bridge that answers. -/
theorem answers_prepare (hd : d.bridge.Answers) :
    (prepare lib definer patch d).2.bridge.Answers := by
  rcases hprepare : prepare lib definer patch d with ⟨result, d'⟩
  rw [(prepare_untouched hprepare).1]
  exact hd

/-- Preparing patches leaves a bridge that answers. -/
theorem answers_prepareAll {undo : List Undo} (hd : d.bridge.Answers) :
    (prepareAll lib definer undo d patches).2.bridge.Answers := by
  rcases hprepare : prepareAll lib definer undo d patches with ⟨result, d'⟩
  rw [(prepareAll_untouched hprepare).1]
  exact hd

/-- A batch leaves a bridge that answers. -/
theorem answers_applyAll (hd : d.bridge.Answers) :
    (applyAll lib definer patches d).2.bridge.Answers := by
  have hprepare : (prepareAll lib definer [] d patches).2.bridge.Answers := answers_prepareAll hd
  rw [applyAll]
  split
  · next hall =>
    rw [hall] at hprepare
    exact hprepare
  · next batch undo d₁ hall =>
    rw [hall] at hprepare
    rcases hredefine : d₁.bridge.redefine d₁.machine batch with ⟨result, bridge, machine⟩
    have hbridge := (hprepare.redefine hredefine).1
    cases result with
    | ok classes => exact hbridge
    | error cause =>
      dsimp only
      rw [bridge_undoAll]
      exact hbridge

end Deployment

namespace Operation

variable {op : Operation σ} {ops : List (Operation σ)} {d d' : Deployment σ}

/-- An operation leaves a bridge that answers. -/
theorem answers_run (hd : d.bridge.Answers) : (op.run lib definer d).2.bridge.Answers := by
  cases op with
  | apply patch redefine =>
    cases redefine with
    | true =>
      simp only [run, Deployment.apply, if_true, Deployment.applyLive]
      split
      · exact hd
      · next cls _ =>
        have htransform : (d.transform lib patch
            (Deployment.toLiveClass patch.target cls)).2.bridge.Answers :=
          Deployment.answers_transform
            (fun type _ h ↦ Deployment.answers_toLiveClass patch.target cls type h) hd
        split
        · next hrun =>
          rw [hrun] at htransform
          exact htransform
        · next hrun =>
          rw [hrun] at htransform
          split
          · exact htransform
          · exact htransform
    | false =>
      refine Deployment.answers_transform (fun type d₁ hd₁ ↦ ?_) hd
      rw [Deployment.bridge_toNewClass]
      exact hd₁
  | image patch =>
    exact Deployment.answers_transform
      (fun type _ h ↦ Deployment.answers_toImage patch.target type h) hd
  | definition patch => exact Deployment.answers_prepare hd
  | applyAll patches => exact Deployment.answers_applyAll hd

/-- With a bridge that answers no operation stays without an answer. -/
theorem isUnanswered_of_answers (hop : ∀ patch ∈ op.patches, patch.Contained lib)
    (hd : d.bridge.Answers) : op.isUnanswered lib definer d = false := by
  rcases hrun : op.run lib definer d with ⟨result, d'⟩
  rcases run_cases hop hrun with ⟨_, _, hanswered, _⟩ |
    ⟨_, _, patch, cls, image, undo, type, _, hstrands⟩ | ⟨_, hanswered, _⟩
  · exact hanswered
  · cases (hd.redefine hstrands.answer).2 [] rfl
  · exact hanswered

/-- With a bridge that answers an operation that fails changes no class and nothing in the
machine. -/
theorem keeps_of_error (hop : ∀ patch ∈ op.patches, patch.Contained lib) (hd : d.bridge.Answers)
    {e : Failure} (h : op.run lib definer d = (.error e, d')) :
    d.pool.Keeps lib d'.pool ∧ d'.machine = d.machine := by
  have hanswered : op.isUnanswered lib definer d = false := isUnanswered_of_answers hop hd
  rcases run_cases hop h with ⟨_, _, _, hkeeps⟩ | ⟨_, hunanswered, _⟩ | ⟨hok, _, _⟩
  · exact hkeeps
  · rw [hanswered] at hunanswered
    cases hunanswered
  · cases hok

/-- The patches of those operations that succeed when the operations are run one after the other. -/
def succeeding (lib : Library) (definer : Definer) :
    List (Operation σ) → Deployment σ → List (Patch σ)
  | [], _ => []
  | op :: rest, d =>
    (if (op.run lib definer d).1.isOk then op.patches else []) ++
      succeeding lib definer rest (op.run lib definer d).2

/-- With a bridge that answers the effective operations are those that succeed. -/
theorem effective_eq_succeeding (hops : ∀ op ∈ ops, ∀ patch ∈ op.patches, patch.Contained lib)
    (hd : d.bridge.Answers) : effective lib definer ops d = succeeding lib definer ops d := by
  induction ops generalizing d with
  | nil => rfl
  | cons op rest ih =>
    obtain ⟨hop, hrest⟩ := List.forall_mem_cons.mp hops
    rw [effective, succeeding, isUnanswered_of_answers hop hd, Bool.or_false,
      ih hrest (answers_run hd)]

/-- With a bridge that answers, however operations follow each other, the classes of the pool are
those that the patches of the successful ones alone make, one after the other. -/
theorem makesAll_succeeding (hops : ∀ op ∈ ops, ∀ patch ∈ op.patches, patch.Contained lib)
    (hd : d.bridge.Answers) :
    Patch.MakesAll lib (succeeding lib definer ops d) (d.pool.class? lib)
      ((runAll lib definer ops d).pool.class? lib) := by
  rw [← effective_eq_succeeding hops hd]
  exact makesAll_effective hops d

end Operation

end Hotswap
