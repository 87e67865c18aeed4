import Hotswap.Class.Verify
import Hotswap.Proofs.DepthWalk
import Hotswap.Proofs.Results

/-!
# What verification promises

Every body of a class that verifies has a computable depth, and declares no smaller one. Where a
class does not verify, the error is one of verification.
-/

namespace Hotswap

namespace ClassDecl

/-- A body of a checked method has a depth, which the method declares at least. -/
theorem reachedDepth_le_of_checkMethod {c : ClassDecl} {m : MethodDecl} {b : Body}
    (h : c.checkMethod m = .ok ()) (hb : m.body = some b) :
    ∃ reached, b.reachedDepth m.argumentSlots m.type.returnsValue = .ok reached ∧
      reached ≤ b.maxStack := by
  obtain ⟨checked, hchecked, h⟩ := bind_eq_ok.mp h
  have hsome : checked = some b := by
    simp only [checkedBody, hb] at hchecked
    split at hchecked
    · cases hchecked
    · cases hchecked
      rfl
  subst hsome
  obtain ⟨reached, hreached, h⟩ := bind_eq_ok.mp h
  refine ⟨reached, ?_, ?_⟩
  · exact mapError_eq_ok.mp hreached
  · split at h
    · cases h
    · next hle => exact UInt16.not_lt.mp hle

/-- Checked methods are checked one by one. -/
theorem checkMethod_of_checkMethods {c : ClassDecl} {seen methods : List MethodDecl}
    (h : c.checkMethods seen methods = .ok ()) : ∀ m ∈ methods, c.checkMethod m = .ok () := by
  induction methods generalizing seen with
  | nil => simp
  | cons m rest ih =>
    simp only [checkMethods] at h
    split at h
    · cases h
    · split at h
      · next hm =>
        intro n hn
        rcases List.mem_cons.mp hn with rfl | hn
        · exact hm
        · exact ih h n hn
      · cases h

/-- A body in a verified class has a depth, which its method declares at least. -/
theorem reachedDepth_le_of_verify {c : ClassDecl} {m : MethodDecl} {b : Body}
    (h : c.verify = .ok ()) (hm : m ∈ c.methods) (hb : m.body = some b) :
    ∃ reached, b.reachedDepth m.argumentSlots m.type.returnsValue = .ok reached ∧
      reached ≤ b.maxStack := by
  obtain ⟨⟨⟩, -, hmethods⟩ := bind_eq_ok.mp h
  exact reachedDepth_le_of_checkMethod (checkMethod_of_checkMethods hmethods m hm) hb

private theorem fails_checkMethod {c : ClassDecl} {m : MethodDecl} {e : Error}
    (h : c.checkMethod m = .error e) : ∃ cause, e = c.methodRefusal m cause := by
  rcases bind_eq_error.mp h with h | ⟨checked, hchecked, h⟩
  · simp only [checkedBody] at h
    split at h
    · split at h
      · cases h
        exact ⟨_, rfl⟩
      · split at h
        · cases h
          exact ⟨_, rfl⟩
        · cases h
    · split at h
      · cases h
      · cases h
        exact ⟨_, rfl⟩
  · cases checked with
    | none => cases h
    | some b =>
      rcases bind_eq_error.mp h with h | ⟨reached, -, h⟩
      · obtain ⟨cause, -, rfl⟩ := mapError_eq_error.mp h
        exact ⟨cause, rfl⟩
      · split at h
        · cases h
          exact ⟨_, rfl⟩
        · cases h

private theorem fails_checkMethods {c : ClassDecl} {seen methods : List MethodDecl} {e : Error}
    (h : c.checkMethods seen methods = .error e) : ∃ m cause, e = c.methodRefusal m cause := by
  induction methods generalizing seen with
  | nil => cases h
  | cons m rest ih =>
    simp only [checkMethods] at h
    split at h
    · cases h
      exact ⟨m, _, rfl⟩
    · split at h
      · exact ih h
      · next hm =>
        cases h
        obtain ⟨cause, rfl⟩ := fails_checkMethod hm
        exact ⟨m, cause, rfl⟩

/-- Verification fails with an error about the class or one of its methods. -/
theorem fails_verify {c : ClassDecl} {e : Error} (h : c.verify = .error e) :
    ∃ method cause, e = .verification c.name method cause := by
  rcases bind_eq_error.mp h with h | ⟨-, -, h⟩
  · simp only [checkFields] at h
    split at h
    · cases h
      exact ⟨"", _, rfl⟩
    · cases h
  · obtain ⟨m, cause, rfl⟩ := fails_checkMethods h
    exact ⟨m.signature, cause, rfl⟩

end ClassDecl

end Hotswap
