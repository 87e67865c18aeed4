import Hotswap.Proofs.Finalized

/-!
# Frozen types

A type is frozen by finalizing it and by nothing else, and a frozen type refuses every edit. So a
type that is found frozen is what finalizing it once has made of it, whatever was tried on it since,
and finalizing it again gives the same image. What the bodies declared about the stack before has no
part in that.
-/

namespace Hotswap

/-! ### Declared depths -/

/-- The method without what its body declares about the stack. -/
def MethodDecl.withoutDepth (m : MethodDecl) : MethodDecl :=
  { m with body := m.body.map fun b ↦ { b with maxStack := 0 } }

namespace ClassDecl

/-- The class without what its bodies declare about the stack. -/
def withoutDepths (c : ClassDecl) : ClassDecl :=
  { c with methods := c.methods.map MethodDecl.withoutDepth }

/-- The depth that a body reaches does not depend on the one that it declares. -/
theorem withReachedDepth_withoutDepth (c : ClassDecl) (m : MethodDecl) :
    c.withoutDepths.withReachedDepth m.withoutDepth = c.withReachedDepth m := by
  obtain ⟨flags, name, type, body⟩ := m
  cases body <;> rfl

/-- Computing the depths does not depend on those that are declared. -/
theorem withReachedDepths_withoutDepths (c : ClassDecl) :
    c.withoutDepths.withReachedDepths = c.withReachedDepths := by
  have hmethods : c.withoutDepths.methods.mapM c.withoutDepths.withReachedDepth =
      c.methods.mapM c.withReachedDepth := by
    show (c.methods.map MethodDecl.withoutDepth).mapM c.withoutDepths.withReachedDepth = _
    rw [List.mapM_map]
    exact congrArg (c.methods.mapM ·) (funext (c.withReachedDepth_withoutDepth ·))
  unfold withReachedDepths
  rw [hmethods]
  rfl

theorem withoutDepth_withReachedDepth {c : ClassDecl} {m m' : MethodDecl}
    (h : c.withReachedDepth m = .ok m') : m'.withoutDepth = m.withoutDepth := by
  obtain ⟨flags, name, type, body⟩ := m
  cases body with
  | none =>
    cases h
    rfl
  | some b =>
    obtain ⟨reached, -, rfl⟩ := map_eq_ok.mp h
    rfl

/-- Computing the depths changes nothing else. -/
theorem withoutDepths_withReachedDepths {c c' : ClassDecl} (h : c.withReachedDepths = .ok c') :
    c'.withoutDepths = c.withoutDepths := by
  obtain ⟨methods, hmethods, rfl⟩ := map_eq_ok.mp h
  simp only [withoutDepths, map_eq_of_mapM (fun _ _ h ↦ withoutDepth_withReachedDepth h) hmethods]

/-- Computing the depths once more changes nothing. -/
theorem withReachedDepths_again {c c' : ClassDecl} (h : c.withReachedDepths = .ok c') :
    c'.withReachedDepths = .ok c' := by
  rw [← withReachedDepths_withoutDepths, withoutDepths_withReachedDepths h,
    withReachedDepths_withoutDepths, h]

/-- A class that computing the depths does not change declares them. -/
theorem reachedDepth_of_withReachedDepths {c : ClassDecl} (h : c.withReachedDepths = .ok c)
    {m : MethodDecl} (hm : m ∈ c.methods) {b : Body} (hb : m.body = some b) :
    c.reachedDepth m b = .ok b.maxStack := by
  obtain ⟨methods, hmethods, hc⟩ := map_eq_ok.mp h
  obtain rfl : methods = c.methods := congrArg ClassDecl.methods hc
  obtain ⟨k, hk⟩ := List.getElem?_of_mem hm
  obtain ⟨m', hm', hdepth⟩ := (getElem?_of_mapM hmethods).2 k m hk
  obtain rfl : m = m' := Option.some.inj (hk.symm.trans hm')
  simp only [withReachedDepth, hb] at hdepth
  obtain ⟨reached, hreached, hsame⟩ := map_eq_ok.mp hdepth
  have hbody : some { b with maxStack := reached } = some b :=
    (congrArg MethodDecl.body hsame).trans hb
  rw [hreached, ← congrArg Body.maxStack (Option.some.inj hbody)]

end ClassDecl

/-! ### Edits of frozen types -/

namespace Editable

/-- A change that is an edit of the class. -/
def Change.IsEdit : Change → Prop
  | thaw | finalize => False
  | _ => True

/-- What a change comes to when it is tried. -/
def tried (t : Editable) : Change → Except Error Editable
  | .addField f => t.addField f
  | .addMethod m => Prod.fst <$> t.addMethod m
  | .changeBody id f => t.modifyBody id fun b ↦ .ok (f b)
  | .insertBefore id snippet => t.insertBefore id snippet
  | .insertAfter id snippet => t.insertAfter id snippet
  | .setBody id code => t.setBody id code
  | .setFlags id flags => t.setFlags id flags
  | .thaw => .ok t.thaw
  | .finalize => .ok t.finalize.2

variable {t t' : Editable}

/-- A change is taken over if it succeeds. -/
theorem after_eq_accept (t : Editable) (c : Change) : t.after c = t.accept (t.tried c) := by
  cases c <;> rfl

theorem modifyMethod_of_frozen (h : t.frozen = true) (id : MethodId)
    (f : MethodDecl → Except Error MethodDecl) :
    t.modifyMethod id f = .error (.frozen t.decl.name) := by
  simp only [modifyMethod, checkThawed, h, if_true]
  rfl

/-- A frozen type refuses every edit. -/
theorem tried_of_frozen (h : t.frozen = true) {c : Change} (hc : c.IsEdit) :
    t.tried c = .error (.frozen t.decl.name) := by
  cases c with
  | addField | addMethod =>
    simp only [tried, addField, addMethod, checkThawed, h, if_true]
    rfl
  | changeBody | insertBefore | insertAfter | setBody | setFlags =>
    exact modifyMethod_of_frozen h _ _
  | thaw | finalize => exact hc.elim

theorem frozen_of_modifyMethod {id : MethodId} {f : MethodDecl → Except Error MethodDecl}
    (h : t.modifyMethod id f = .ok t') : t'.frozen = t.frozen := by
  obtain ⟨-, m, m', -, -, rfl⟩ := modifyMethod_eq_ok h
  rfl

/-- No edit freezes or thaws a type. -/
theorem frozen_of_tried {c : Change} (hc : c.IsEdit) (h : t.tried c = .ok t') :
    t'.frozen = t.frozen := by
  cases c with
  | addField =>
    obtain ⟨-, -, rfl⟩ := addField_eq_ok h
    rfl
  | addMethod =>
    obtain ⟨⟨_, _⟩, hadd, rfl⟩ := map_eq_ok.mp h
    obtain ⟨-, -, -, rfl⟩ := addMethod_eq_ok hadd
    rfl
  | changeBody | insertBefore | insertAfter | setBody | setFlags => exact frozen_of_modifyMethod h
  | thaw | finalize => exact hc.elim

/-- An edit leaves a type as frozen as it was. -/
theorem frozen_after {c : Change} (hc : c.IsEdit) : (t.after c).frozen = t.frozen := by
  rw [after_eq_accept]
  cases h : t.tried c with
  | ok t' => exact frozen_of_tried hc h
  | error e => rfl

/-! ### Finalizing again -/

/-- Finalizing a finalized type gives the same image and changes nothing. -/
theorem finalize_again {image : List UInt8} (h : t.finalize = (.ok image, t')) :
    t'.finalize = (.ok image, t') := by
  obtain ⟨hdepths, hverify⟩ := verify_of_finalize h
  obtain ⟨hfrozen, hencode⟩ := finalize_eq_ok h
  simp only [finalize, ClassDecl.withReachedDepths_again hdepths, hverify, hencode]
  cases t'
  cases hfrozen
  rfl

/-- Finalizing that does not succeed leaves a type as frozen as it was. -/
theorem frozen_of_finalize_error {e : Error} (h : t.finalize = (.error e, t')) :
    t'.frozen = t.frozen := by
  rw [finalize] at h
  split at h
  · cases h
    rfl
  · split at h
    · cases h
      rfl
    · split at h <;> cases h
      rfl

/-- Whether finalizing succeeds, and with which image, does not depend on the depths that the bodies
declared before. -/
theorem finalize_eq_of_withoutDepths_eq
    (h : t.decl.withoutDepths = t'.decl.withoutDepths) : t.finalize.1 = t'.finalize.1 := by
  have hdepths : t.decl.withReachedDepths = t'.decl.withReachedDepths := by
    rw [← t.decl.withReachedDepths_withoutDepths, h, t'.decl.withReachedDepths_withoutDepths]
  unfold finalize
  rw [hdepths]
  split
  · rfl
  · split
    · rfl
    · split <;> rfl

/-- What is so of a type that is frozen: it verifies, every body declares the depth that it reaches,
every edit is refused and without effect, and finalizing it again gives the same image and changes
nothing. -/
structure Final (t : Editable) (image : List UInt8) : Prop where
  verifies : t.decl.verify = .ok ()
  depths : ∀ m ∈ t.decl.methods, ∀ b, m.body = some b → t.decl.reachedDepth m b = .ok b.maxStack
  refuses : ∀ c : Change, c.IsEdit → t.tried c = .error (.frozen t.decl.name) ∧ t.after c = t
  finalizes : t.finalize = (.ok image, t)

/-- A finalized type is final. -/
theorem final_of_finalize {image : List UInt8} (h : t.finalize = (.ok image, t')) :
    t'.Final image := by
  obtain ⟨hdepths, hverify⟩ := verify_of_finalize h
  have hfrozen := (finalize_eq_ok h).1
  refine ⟨hverify, fun m hm b hb ↦ ?_, fun c hc ↦ ?_, finalize_again h⟩
  · exact ClassDecl.reachedDepth_of_withReachedDepths (ClassDecl.withReachedDepths_again hdepths)
      hm hb
  · have hrefused := tried_of_frozen hfrozen hc
    refine ⟨hrefused, ?_⟩
    rw [after_eq_accept, hrefused, accept]

/-! ### What types go through -/

/-- What a type goes through: a change, or the engine puts a class back, thawed. -/
inductive Turn where
  | change (c : Change)
  | restore (decl : ClassDecl)

/-- A type after a turn. -/
def undergo (t : Editable) : Turn → Editable
  | .change c => t.after c
  | .restore decl => .ofDecl decl

/-- A type after turns one after the other. -/
def undergoAll (t : Editable) (turns : List Turn) : Editable := turns.foldl undergo t

theorem undergoAll_append (t : Editable) (turns rest : List Turn) :
    t.undergoAll (turns ++ rest) = (t.undergoAll turns).undergoAll rest :=
  List.foldl_append

/-- A turn that leaves a type frozen finalizes a thawed one, or finds it frozen and, if it was
final, changes nothing. -/
theorem frozen_undergo {turn : Turn} (h : (t.undergo turn).frozen = true) :
    (∃ image, t.frozen = false ∧ turn = .change .finalize ∧
        t.finalize = (.ok image, t.undergo turn)) ∨
      t.frozen = true ∧ ∀ image, t.Final image → t.undergo turn = t := by
  cases turn with
  | restore decl => cases h
  | change c =>
    by_cases hc : c.IsEdit
    · rw [undergo, frozen_after hc] at h
      exact .inr ⟨h, fun image hfinal ↦ (hfinal.refuses c hc).2⟩
    · cases c with
      | thaw => cases h
      | finalize =>
        cases hfrozen : t.frozen with
        | true =>
          refine .inr ⟨rfl, fun image hfinal ↦ ?_⟩
          show t.finalize.2 = t
          rw [hfinal.finalizes]
        | false =>
          refine .inl ?_
          show ∃ image, _ ∧ _ ∧ t.finalize = (.ok image, t.finalize.2)
          replace h : t.finalize.2.frozen = true := h
          rcases hfinalize : t.finalize with ⟨result, t'⟩
          rw [hfinalize] at h
          cases result with
          | ok image => exact ⟨image, rfl, rfl, rfl⟩
          | error e =>
            rw [show t'.frozen = false from (frozen_of_finalize_error hfinalize).trans hfrozen] at h
            cases h
      | _ => exact absurd trivial hc

/-- A type that is frozen after any turns was finalized by one of them, from a thawed type, is final
with the image that it got then, and has not changed since. -/
theorem final_of_frozen {c : ClassDecl} {turns : List Turn}
    (h : ((ofDecl c).undergoAll turns).frozen = true) :
    ∃ before rest image, turns = before ++ .change .finalize :: rest ∧
      ((ofDecl c).undergoAll before).frozen = false ∧
      ((ofDecl c).undergoAll before).finalize = (.ok image, (ofDecl c).undergoAll turns) ∧
      ((ofDecl c).undergoAll turns).Final image := by
  -- The last turn comes off first: it has frozen the type, or the type was frozen before it.
  induction turns using List.reverseRecOn with
  | nil => cases h
  | append_singleton turns turn ih =>
    rw [undergoAll_append] at h ⊢
    rcases frozen_undergo h with ⟨image, hthawed, rfl, hfinalize⟩ | ⟨hfrozen, hkept⟩
    · exact ⟨turns, [], image, rfl, hthawed, hfinalize, final_of_finalize hfinalize⟩
    · obtain ⟨before, rest, image, hturns, hthawed, hfinalize, hfinal⟩ := ih hfrozen
      have hsame : ((ofDecl c).undergoAll turns).undergoAll [turn] = (ofDecl c).undergoAll turns :=
        hkept image hfinal
      rw [hsame]
      refine ⟨before, rest ++ [turn], image, ?_, hthawed, hfinalize, hfinal⟩
      rw [hturns, List.append_assoc, List.cons_append]

end Editable

end Hotswap
