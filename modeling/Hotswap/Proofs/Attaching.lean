import Hotswap.Proofs.Answers

/-!
# When a bridge attaches

Engines may share a bridge. Their pools and machines may be shared too or not, and may change
between operations, so that what an operation meets beside the bridge is taken to be anything at
all. An operation that redefines hands the bridge one batch once all of its patches are ready, and
no batch otherwise. The bridge calls its agent for a batch that is not empty as long as no call has
succeeded, and then never again.
-/

namespace Hotswap

variable {σ α : Type} {lib : Library} {definer : Definer}

/-! ## What a bridge does with a batch -/

namespace Bridge

variable {b : Bridge} {m : Machine} {batch : List Replacement}

/-- An empty batch needs no capability. -/
@[simp] theorem redefine_nil (b : Bridge) (m : Machine) : b.redefine m [] = (.ok [], b, m) := rfl

theorem isAttached_eq_false_iff : b.isAttached = false ↔ b.capability = none := by
  rw [isAttached, Option.isSome_eq_false_iff, Option.isNone_iff_eq_none]

/-- A bridge that has attached stays as it is. -/
theorem redefine_of_isAttached (hb : b.isAttached = true) :
    (b.redefine m batch).2.1 = b := by
  obtain ⟨c, hc⟩ := Option.isSome_iff_exists.mp hb
  simp only [redefine, obtain, hc]
  split
  · rfl
  · cases c m batch <;> rfl

/-- A bridge that attaches keeps the capability, whatever becomes of the batch. -/
theorem redefine_of_attach (hb : b.isAttached = false) (hbatch : batch ≠ []) {c : Capability}
    (hagent : b.agent b.calls m = .ok c) :
    (b.redefine m batch).2.1 = ⟨b.agent, b.calls + 1, some c⟩ := by
  have hnone := isAttached_eq_false_iff.mp hb
  simp only [redefine, obtain, hnone, hagent, List.isEmpty_eq_false_iff.mpr hbatch,
    Bool.false_eq_true, if_false]
  cases c m batch <;> rfl

/-- A bridge that is refused fails the batch and has nothing but the call to show for it. -/
theorem redefine_of_refusal (hb : b.isAttached = false) (hbatch : batch ≠ []) {e : Error}
    (hagent : b.agent b.calls m = .error e) :
    b.redefine m batch = (.error (.attach e), ⟨b.agent, b.calls + 1, none⟩, m) := by
  have hnone := isAttached_eq_false_iff.mp hb
  simp only [redefine, obtain, hnone, hagent, List.isEmpty_eq_false_iff.mpr hbatch,
    Bool.false_eq_true, if_false]

end Bridge

/-! ## Patches that are ready -/

/-- A patch is ready as a unit: its live class was found and its record is usable, its method was
resolved, its transformation has succeeded, and the outcome was finalized into the image of the
unit. The finalized type is in the record; the bridge and the machine are as they were. -/
def Patch.Readies (lib : Library) (definer : Definer) (patch : Patch σ) (d : Deployment σ)
    (u : Replacement) (d' : Deployment σ) : Prop :=
  definer.findLoaded d.machine patch.target = some u.cls ∧
    ∃ p id record method q e type, d.pool.get? lib patch.target = .ok (some id, p) ∧
      p.record? id = some record ∧ record.broken = false ∧
      patch.resolve lib p (.ofDecl record.type.decl) = (.ok method, q) ∧
      patch.transform lib method ⟨.ofDecl record.type.decl, q, d.host⟩ = (.ok (), e) ∧
      e.type.finalize = (.ok u.image, type) ∧
      d' = { d with pool := e.pool, host := e.host }.write id type

/-- Patches are ready as a batch, each after those before it. -/
inductive Patch.ReadiesAll (lib : Library) (definer : Definer) :
    List (Patch σ) → Deployment σ → List Replacement → Deployment σ → Prop
  | nil (d) : ReadiesAll lib definer [] d [] d
  | cons {patch rest d d₁ d' u batch} : patch.Readies lib definer d u d₁ →
    ReadiesAll lib definer rest d₁ batch d' →
    ReadiesAll lib definer (patch :: rest) d (u :: batch) d'

namespace Deployment

variable {patch : Patch σ} {patches : List (Patch σ)} {d d' : Deployment σ}

/-- A patch can be prepared exactly if it is ready. -/
theorem prepare_eq_ok_iff {u : Replacement} :
    (∃ undo, prepare lib definer patch d = (.ok (u, undo), d')) ↔
      patch.Readies lib definer d u d' := by
  constructor
  · rintro ⟨undo, h⟩
    obtain ⟨hcls, htransform⟩ := prepare_eq_ok h
    obtain ⟨p, id, record, method, q, e, type, after, hget, hrecord, hbroken, hresolve, hrun,
      hfinal, -, rfl⟩ := transform_eq_ok htransform
    obtain ⟨rfl, hfinalize⟩ := toImage_eq hfinal
    exact ⟨targetClass_eq_ok.mp hcls, p, id, record, method, q, e, type, hget, hrecord, hbroken,
      hresolve, hrun, hfinalize _ rfl, rfl⟩
  · rintro ⟨hfound, p, id, record, method, q, e, type, hget, hrecord, hbroken, hresolve, hrun,
      hfinalize, rfl⟩
    have hthaw : record.type.thaw = .ofDecl record.type.decl := rfl
    refine ⟨⟨id, record.type.decl⟩, ?_⟩
    simp only [prepare, targetClass_eq_ok.mpr hfound, transform, hget, hrecord, hbroken, hthaw,
      hresolve, transformHeld, hrun, toImage, hfinalize, Bool.false_eq_true, if_false]
    rfl

/-- Patches can be prepared exactly if they are ready. -/
theorem prepareAll_eq_ok_iff {undo : List Undo} {batch : List Replacement} :
    (∃ undo', prepareAll lib definer undo d patches = (.ok (batch, undo'), d')) ↔
      Patch.ReadiesAll lib definer patches d batch d' := by
  constructor
  · rintro ⟨undo', h⟩
    induction patches generalizing d undo batch with
    | nil =>
      cases h
      exact .nil _
    | cons patch rest ih =>
      obtain ⟨u, back, d₁, others, hfirst, hrest, rfl⟩ := prepareAll_cons_eq_ok h
      exact .cons (prepare_eq_ok_iff.mp ⟨back, hfirst⟩) (ih hrest)
  · intro h
    induction h generalizing undo with
    | nil => exact ⟨undo, rfl⟩
    | cons hfirst _ ih =>
      obtain ⟨back, hprepare⟩ := prepare_eq_ok_iff.mpr hfirst
      obtain ⟨undo', hall⟩ := @ih (undo ++ [back])
      exact ⟨undo', by rw [prepareAll, hprepare]; simp only [hall]⟩

/-- What a live patch makes of its image: the class is redefined, and if that fails the class that
was remembered is put back. -/
def redefineWith (cls : ClassId) (image : List UInt8) (undo : Undo) (d : Deployment σ) :
    Except Failure (List ClassId × Undo) × Deployment σ :=
  match d.bridge.redefine d.machine [⟨cls, image⟩] with
  | (.ok classes, bridge, machine) => (.ok (classes, undo), { d with bridge, machine })
  | (.error e, bridge, machine) =>
    (.error (.error e), { d with bridge, machine }.write undo.record (.ofDecl undo.snapshot))

theorem transformHeld_toLiveClass (cls : ClassId) (id : RecordId) (type : Editable)
    (method : Option MethodId) (d : Deployment σ) :
    transformHeld lib patch (toLiveClass patch.target cls) id type method d =
      match transformHeld lib patch (toImage patch.target) id type method d with
      | (.error e, d) => (.error e, d)
      | (.ok (image, undo), d) => redefineWith cls image undo d := by
  rcases hrun : patch.transform lib method ⟨type, d.pool, d.host⟩ with ⟨outcome, e⟩
  cases outcome with
  | error failure => cases failure <;> simp only [transformHeld, hrun]
  | ok _ =>
    rcases hfinalize : e.type.finalize with ⟨image, made⟩
    cases image with
    | error cause => simp only [transformHeld, hrun, toLiveClass, toImage, hfinalize]
    | ok image =>
      rcases hredefine : d.bridge.redefine d.machine [⟨cls, image⟩] with ⟨result, bridge, machine⟩
      simp only [transformHeld, hrun, toLiveClass, toImage, hfinalize, redefineWith, write,
        hredefine]
      cases result with
      | ok classes => rfl
      | error cause => simp only [Pool.modify_modify, Function.comp_def]

/-- A live patch makes its image first, and only then redefines the class. -/
theorem transform_toLiveClass (cls : ClassId) (d : Deployment σ) :
    transform lib patch (toLiveClass patch.target cls) d =
      match transform lib patch (toImage patch.target) d with
      | (.error e, d) => (.error e, d)
      | (.ok (image, undo), d) => redefineWith cls image undo d := by
  simp only [transform]
  split
  · rfl
  · rfl
  · split
    · rfl
    · split
      · rfl
      · split
        · rfl
        · exact transformHeld_toLiveClass cls _ _ _ _

/-- A live patch that is ready redefines its class, and fails if that fails. -/
theorem applyLive_of_prepare_ok {u : Replacement} {undo : Undo}
    (h : prepare lib definer patch d = (.ok (u, undo), d')) :
    (applyLive lib definer patch d).2 = (redefineWith u.cls u.image undo d').2 ∧
      ∀ e, (redefineWith u.cls u.image undo d').1 = .error e →
        (applyLive lib definer patch d).1 = .error e := by
  obtain ⟨htarget, htransform⟩ := prepare_eq_ok h
  simp only [applyLive, htarget, transform_toLiveClass, htransform]
  rcases redefineWith u.cls u.image undo d' with ⟨result, d₁⟩
  cases result with
  | error cause =>
    refine ⟨rfl, fun e he ↦ ?_⟩
    cases he
    rfl
  | ok made =>
    refine ⟨?_, fun e he ↦ ?_⟩
    · dsimp only
      split <;> rfl
    · cases he

/-- A live patch that is not ready fails as its preparation does. -/
theorem applyLive_of_prepare_error {e : Failure}
    (h : prepare lib definer patch d = (.error e, d')) :
    applyLive lib definer patch d = (.error e, d') := by
  rw [prepare] at h
  rw [applyLive]
  split at h
  · cases h
    rfl
  · rcases htransform : transform lib patch (toImage patch.target) d with ⟨result, d₁⟩
    rw [htransform] at h
    cases result with
    | ok made => cases h
    | error cause =>
      cases h
      simp only [transform_toLiveClass, htransform]

end Deployment

/-! ## Operations that redefine -/

namespace Operation

variable {op : Operation σ} {d d' : Deployment σ} {batch : List Replacement}

/-- Tells whether an operation redefines live classes. -/
def redefines : Operation σ → Bool
  | apply _ redefine => redefine
  | image _ => false
  | definition _ => false
  | applyAll _ => true

/-- The batch that an operation hands to the bridge; nothing if a patch is not ready, or if the
operation does not redefine. -/
def handed? (lib : Library) (definer : Definer) (d : Deployment σ) :
    Operation σ → Option (List Replacement)
  | apply patch true => (d.prepare lib definer patch).1.toOption.map fun made ↦ [made.1]
  | applyAll patches => (d.prepareAll lib definer [] patches).1.toOption.map Prod.fst
  | _ => none

/-- A live patch hands over its unit exactly if it can be prepared. -/
theorem handed?_apply_eq_some {patch : Patch σ} :
    (apply patch true).handed? lib definer d = some batch ↔
      ∃ u undo d', d.prepare lib definer patch = (.ok (u, undo), d') ∧ batch = [u] := by
  rcases hprepare : d.prepare lib definer patch with ⟨result, d'⟩
  cases result with
  | error e => simp [handed?, hprepare, Except.toOption]
  | ok made => simp [handed?, hprepare, Except.toOption, Prod.ext_iff, eq_comm]

/-- Several patches are handed over exactly if they can be prepared. -/
theorem handed?_applyAll_eq_some {patches : List (Patch σ)} :
    (applyAll patches).handed? lib definer d = some batch ↔
      ∃ undo d', d.prepareAll lib definer [] patches = (.ok (batch, undo), d') := by
  rcases hprepare : d.prepareAll lib definer [] patches with ⟨result, d'⟩
  cases result with
  | error e => simp [handed?, hprepare, Except.toOption]
  | ok made => simp [handed?, hprepare, Except.toOption, Prod.ext_iff]

/-- An operation hands over a batch exactly if it redefines and all of its patches are ready, as
that batch. -/
theorem handed?_eq_some_iff : op.handed? lib definer d = some batch ↔
    op.redefines = true ∧ ∃ d', Patch.ReadiesAll lib definer op.patches d batch d' := by
  cases op with
  | image patch => simp [handed?, redefines]
  | definition patch => simp [handed?, redefines]
  | apply patch redefine =>
    cases redefine with
    | false => simp [handed?, redefines]
    | true =>
      rw [handed?_apply_eq_some]
      constructor
      · rintro ⟨u, undo, d', hprepare, rfl⟩
        exact ⟨rfl, d', .cons (Deployment.prepare_eq_ok_iff.mp ⟨undo, hprepare⟩) (.nil d')⟩
      · rintro ⟨-, d', hall⟩
        cases hall with
        | cons hfirst hrest =>
          cases hrest
          obtain ⟨undo, hprepare⟩ := Deployment.prepare_eq_ok_iff.mpr hfirst
          exact ⟨_, undo, d', hprepare, rfl⟩
  | applyAll patches =>
    rw [handed?_applyAll_eq_some]
    constructor
    · rintro ⟨undo, d', hprepare⟩
      exact ⟨rfl, d', Deployment.prepareAll_eq_ok_iff.mp ⟨undo, hprepare⟩⟩
    · rintro ⟨-, d', hall⟩
      obtain ⟨undo, hprepare⟩ := Deployment.prepareAll_eq_ok_iff.mpr hall
      exact ⟨undo, d', hprepare⟩

/-- An operation that hands over no batch leaves the bridge alone. -/
theorem bridge_run_of_handed?_eq_none (h : op.handed? lib definer d = none) :
    (op.run lib definer d).2.bridge = d.bridge := by
  cases op with
  | image patch => exact (Deployment.transform_toImage_untouched patch.target d).1
  | definition patch =>
    rcases hprepare : d.prepare lib definer patch with ⟨result, d'⟩
    simp only [run, Deployment.definition, hprepare]
    exact (Deployment.prepare_untouched hprepare).1
  | apply patch redefine =>
    cases redefine with
    | false =>
      refine Deployment.transform_invariant (P := fun b _ ↦ b = d.bridge) (fun type d₁ hd₁ ↦ ?_)
        rfl
      rw [Deployment.bridge_toNewClass]
      exact hd₁
    | true =>
      rcases hprepare : d.prepare lib definer patch with ⟨result, d'⟩
      rw [handed?, hprepare] at h
      cases result with
      | ok made => cases h
      | error e =>
        simp only [run, Deployment.apply, if_true, Deployment.applyLive_of_prepare_error hprepare]
        exact (Deployment.prepare_untouched hprepare).1
  | applyAll patches =>
    rcases hprepare : d.prepareAll lib definer [] patches with ⟨result, d'⟩
    rw [handed?, hprepare] at h
    cases result with
    | ok made => cases h
    | error e =>
      simp only [run, Deployment.applyAll, hprepare]
      exact (Deployment.prepareAll_untouched hprepare).1

/-- What an operation does with the bridge and the machine is what the bridge does with its batch;
if the bridge fails the batch the operation fails with the same cause. -/
theorem run_of_handed? (h : op.handed? lib definer d = some batch)
    {result : Except Error (List ClassId)} {bridge : Bridge} {machine : Machine}
    (hredefine : d.bridge.redefine d.machine batch = (result, bridge, machine)) :
    (op.run lib definer d).2.bridge = bridge ∧ (op.run lib definer d).2.machine = machine ∧
      ∀ e, result = .error e → (op.run lib definer d).1 = .error (.error e) := by
  cases op with
  | image patch => cases h
  | definition patch => cases h
  | apply patch redefine =>
    cases redefine with
    | false => cases h
    | true =>
      obtain ⟨u, undo, d', hprepare, rfl⟩ := handed?_apply_eq_some.mp h
      obtain ⟨hbridge, hmachine⟩ := Deployment.prepare_untouched hprepare
      obtain ⟨hlive, herror⟩ := Deployment.applyLive_of_prepare_ok hprepare
      rw [← hbridge, ← hmachine] at hredefine
      simp only [Deployment.redefineWith, hredefine] at hlive herror
      simp only [run, Deployment.apply, if_true, hlive]
      cases result with
      | ok classes =>
        refine ⟨rfl, rfl, fun e he ↦ ?_⟩
        cases he
      | error cause =>
        refine ⟨rfl, rfl, fun e he ↦ ?_⟩
        rw [herror _ rfl, Except.error.inj he]
        rfl
  | applyAll patches =>
    obtain ⟨undo, d', hprepare⟩ := handed?_applyAll_eq_some.mp h
    obtain ⟨hbridge, hmachine⟩ := Deployment.prepareAll_untouched hprepare
    rw [← hbridge, ← hmachine] at hredefine
    simp only [run, Deployment.applyAll, hprepare, hredefine]
    cases result with
    | ok classes =>
      refine ⟨rfl, rfl, fun e he ↦ ?_⟩
      cases he
    | error cause =>
      refine ⟨?_, ?_, fun e he ↦ ?_⟩
      · exact Deployment.bridge_undoAll _ _
      · exact Deployment.machine_undoAll _ _
      · rw [Except.error.inj he]
        rfl

end Operation

/-! ## Turns of engines -/

/-- A turn of an engine: its operation, and everything that the operation meets beside the
bridge. -/
structure EngineTurn (σ : Type) where
  library : Library
  definer : Definer
  pool : Pool
  machine : Machine
  host : σ
  op : Operation σ

namespace EngineTurn

variable {t : EngineTurn σ} {turns before after : List (EngineTurn σ)} {b : Bridge}
  {batch : List Replacement}

/-- What the operation works on if the turn finds a bridge. -/
def deployment (t : EngineTurn σ) (b : Bridge) : Deployment σ := ⟨t.pool, b, t.machine, t.host⟩

/-- Runs the operation with the bridge that the turn finds. -/
def run (t : EngineTurn σ) (b : Bridge) : Except Failure Unit × Deployment σ :=
  t.op.run t.library t.definer (t.deployment b)

/-- The batch that a turn hands to the bridge. -/
def handed? (t : EngineTurn σ) (b : Bridge) : Option (List Replacement) :=
  t.op.handed? t.library t.definer (t.deployment b)

/-- The batch of a turn, if it needs a capability. -/
def needed? (t : EngineTurn σ) (b : Bridge) : Option (List Replacement) :=
  (t.handed? b).filter (!·.isEmpty)

theorem needed?_eq_some_iff :
    t.needed? b = some batch ↔ t.handed? b = some batch ∧ batch ≠ [] := by
  rw [needed?, Option.filter_eq_some_iff, Bool.not_eq_true', List.isEmpty_eq_false_iff]

/-- A turn that needs no capability leaves the bridge alone. -/
theorem bridge_run_of_needed?_eq_none (h : t.needed? b = none) : (t.run b).2.bridge = b := by
  cases hhanded : t.handed? b with
  | none => exact Operation.bridge_run_of_handed?_eq_none hhanded
  | some batch =>
    have hempty : batch = [] := by
      by_contra hbatch
      rw [needed?_eq_some_iff.mpr ⟨hhanded, hbatch⟩] at h
      cases h
    subst hempty
    exact (Operation.run_of_handed? hhanded (Bridge.redefine_nil _ _)).1

/-- A turn that finds the bridge attached leaves it alone. -/
theorem bridge_run_of_isAttached (hb : b.isAttached = true) : (t.run b).2.bridge = b := by
  cases hhanded : t.handed? b with
  | none => exact Operation.bridge_run_of_handed?_eq_none hhanded
  | some batch =>
    exact (Operation.run_of_handed? hhanded rfl).1.trans (Bridge.redefine_of_isAttached hb)

/-- A turn that needs a capability which the agent gives leaves the bridge attached. -/
theorem bridge_run_of_attach (hb : b.isAttached = false) (hneeded : t.needed? b = some batch)
    {c : Capability} (hagent : b.agent b.calls t.machine = .ok c) :
    (t.run b).2.bridge = ⟨b.agent, b.calls + 1, some c⟩ := by
  obtain ⟨hhanded, hbatch⟩ := needed?_eq_some_iff.mp hneeded
  exact (Operation.run_of_handed? hhanded rfl).1.trans (Bridge.redefine_of_attach hb hbatch hagent)

/-- A turn that needs a capability which the agent refuses fails with the refusal. The bridge has
one more call and the machine is as it was. -/
theorem run_of_refusal (hb : b.isAttached = false) (hneeded : t.needed? b = some batch)
    {e : Error} (hagent : b.agent b.calls t.machine = .error e) :
    (t.run b).1 = .error (.error (.attach e)) ∧
      (t.run b).2.bridge = ⟨b.agent, b.calls + 1, none⟩ ∧ (t.run b).2.machine = t.machine := by
  obtain ⟨hhanded, hbatch⟩ := needed?_eq_some_iff.mp hneeded
  obtain ⟨hbridge, hmachine, herror⟩ :=
    Operation.run_of_handed? hhanded (Bridge.redefine_of_refusal hb hbatch hagent)
  exact ⟨herror _ rfl, hbridge, hmachine⟩

/-- What a turn does with the bridge that it finds. -/
structure Attaches (t : EngineTurn σ) (b : Bridge) : Prop where
  /-- A batch is handed over exactly if the operation redefines and all of its patches are ready. -/
  handed_iff : ∀ batch, t.handed? b = some batch ↔ t.op.redefines = true ∧
    ∃ d', Patch.ReadiesAll t.library t.definer t.op.patches (t.deployment b) batch d'
  served : ∀ batch, t.handed? b = some batch →
    ((t.run b).2.bridge, (t.run b).2.machine) = (b.redefine t.machine batch).2
  unneeded : t.needed? b = none → (t.run b).2.bridge = b
  attached : b.isAttached = true → (t.run b).2.bridge = b
  attaches : b.isAttached = false → ∀ batch, t.needed? b = some batch →
    ∀ c, b.agent b.calls t.machine = .ok c → (t.run b).2.bridge = ⟨b.agent, b.calls + 1, some c⟩
  /-- A refusal fails the turn, redefines no class, and keeps every class of the pool. -/
  refused : b.isAttached = false → ∀ batch, t.needed? b = some batch →
    ∀ e, b.agent b.calls t.machine = .error e →
      (t.run b).1 = .error (.error (.attach e)) ∧
        (t.run b).2.bridge = ⟨b.agent, b.calls + 1, none⟩ ∧
        (t.run b).2.bridge.isAttached = false ∧ (t.run b).2.machine = t.machine ∧
        t.pool.Keeps t.library (t.run b).2.pool

/-- A turn whose transformations are contained does that with any bridge. -/
theorem attaches (ht : ∀ patch ∈ t.op.patches, patch.Contained t.library) (b : Bridge) :
    t.Attaches b where
  handed_iff _ := Operation.handed?_eq_some_iff
  served batch h := by
    obtain ⟨hbridge, hmachine, -⟩ := Operation.run_of_handed? h rfl
    exact Prod.ext hbridge hmachine
  unneeded := bridge_run_of_needed?_eq_none
  attached := bridge_run_of_isAttached
  attaches hb _ hneeded _ := bridge_run_of_attach hb hneeded
  refused hb batch hneeded e hagent := by
    obtain ⟨herror, hbridge, hmachine⟩ := run_of_refusal hb hneeded hagent
    refine ⟨herror, hbridge, by rw [hbridge]; rfl, hmachine, ?_⟩
    rcases hrun : t.run b with ⟨result, d'⟩
    rw [hrun] at herror
    rcases Operation.run_cases ht hrun with ⟨_, _, _, hkeeps, _⟩ | ⟨hempty, _⟩ | ⟨hok, _, _⟩
    · exact hkeeps
    · rw [hempty] at herror
      cases herror
    · rw [hok] at herror
      cases herror

end EngineTurn

end Hotswap
