import Hotswap.Proofs.ParallelRuns
import Hotswap.Proofs.Weaving

/-!
# Snippets in front of bodies

A body with a snippet in front runs the snippet as if it stood alone. If the snippet comes to its
end, the body runs from there on as if it began with the locals, the stack and the world that the
snippet left, and it never comes back to the snippet.
-/

namespace Hotswap

/-- A method with another body. -/
def MethodDecl.withBody (d : MethodDecl) (b : Body) : MethodDecl := { d with body := some b }

namespace Frame

/-- A frame at the first instruction of a method with some body, with the locals and the stack that
are there. -/
def restart (f : Frame) (d : MethodDecl) (b : Body) : Frame :=
  { f with method := d.withBody b, code := b.code.toArray, pc := 0 }

/-- A frame of a method with some body and one of the method with a body in which the code of the
first one stands a distance behind the beginning: with the same locals and the same stack, at
corresponding instructions. The frame stays inside its code if all branches do. -/
structure Shifted (d : MethodDecl) (b b' : Body) (distance : Nat) (f g : Frame) : Prop where
  cls : g.cls = f.cls
  method : f.method = d.withBody b
  method_shifted : g.method = d.withBody b'
  code : f.code = b.code.toArray
  code_shifted : g.code = b'.code.toArray
  pc : g.pc = distance + f.pc
  pc_le : (∀ i ∈ b.code, ∀ t, i.target? = some t → t.toNat ≤ b.code.length) →
    f.pc ≤ b.code.length
  locals : g.locals = f.locals
  stack : g.stack = f.stack

variable {σ : Type} {d : MethodDecl} {b b' : Body} {distance : Nat}

/-- The same locals and stack at the first instruction, wherever that stands. -/
theorem shifted_restart (f : Frame) (d : MethodDecl) (b b' : Body) :
    (f.restart d b).Shifted d b b' 0 (f.restart d b') :=
  ⟨rfl, rfl, rfl, rfl, rfl, rfl, fun _ ↦ Nat.zero_le _, rfl, rfl⟩

/-- A code and the same code behind another one run side by side. -/
theorem alongside_shifted (s : Surroundings σ) (d : MethodDecl)
    (hat : SnippetAt b'.code b.code distance)
    (hfits : ∀ i ∈ b.code, ∀ t, i.target? = some t → distance + t.toNat < UInt32.size) :
    Alongside s (Shifted d b b' distance) fun _ ↦ True := by
  constructor
  case push =>
    intro f g v h
    exact ⟨h.cls, h.method, h.method_shifted, h.code, h.code_shifted, h.pc, h.pc_le, h.locals,
      congrArg (v :: ·) h.stack⟩
  case type =>
    intro f g h
    rw [h.method, h.method_shifted]
    rfl
  case leaves =>
    intro x hx
    exact absurd trivial hx
  case step =>
    intro f g x h hx _
    have hfetch : b.code[f.pc]? = some x := by
      rw [h.code, List.getElem?_toArray] at hx
      exact hx
    have hlt : f.pc < b.code.length := (List.getElem?_eq_some_iff.mp hfetch).1
    have hcounterpart : g.code[g.pc]? = some (x.mapTarget (· + UInt32.ofNat distance)) := by
      rw [h.code_shifted, List.getElem?_toArray, h.pc]
      exact hat f.pc x hfetch
    have hnext : g.pc + 1 = distance + (f.pc + 1) := by
      rw [h.pc]
      omega
    refine ⟨_, hcounterpart, fun w ↦ matches_execute ?_ ?_ ?_ ?_ ?_ s w⟩
    · refine ⟨h.cls, ?_, h.stack⟩
      show g.method.signature = f.method.signature
      rw [h.method, h.method_shifted]
      rfl
    · intro index _
      show g.locals[index.toNat]? = f.locals[index.toNat]?
      rw [h.locals]
    · intro _ stack
      exact ⟨h.cls, h.method, h.method_shifted, h.code, h.code_shifted, hnext, fun _ ↦ hlt, h.locals,
        rfl⟩
    · intro index _ v stack
      show (index.toNat < f.locals.size ↔ index.toNat < g.locals.size) ∧ _
      rw [h.locals]
      exact ⟨Iff.rfl, h.cls, h.method, h.method_shifted, h.code, h.code_shifted, hnext, fun _ ↦ hlt,
        rfl, rfl⟩
    · intro t ht stack
      have hmem := List.mem_of_getElem? hfetch
      have hsum := toNat_add_ofNat (hfits x hmem t ht)
      exact ⟨h.cls, h.method, h.method_shifted, h.code, h.code_shifted, hsum,
        fun hinside ↦ hinside x hmem t ht, h.locals, rfl⟩

end Frame

namespace Invocation

variable {σ : Type} {s : Surroundings σ} {d : MethodDecl} {b b' : Body} {distance : Nat}
  {base : CallStack}

/-- As long as an invocation stays in the call of its frame above `base`, another one stays there
with it, step by step, with corresponding frames. The next instruction is the same, up to the target
of a branch, and comes to the same, also where it returns or fails. -/
def Mirrors (s : Surroundings σ) (R : Frame → Frame → Prop) (base : CallStack)
    (i i' : Invocation σ) : Prop :=
  ∀ n j, Stays s base.size n i j → ∃ j', Stays s base.size n i' j' ∧ j.Beside R base j' ∧
    ∀ x, j.next? = some x → ∃ φ, j'.next? = some (x.mapTarget φ) ∧
      (j.step s x).Beside R base (j'.step s (x.mapTarget φ))

/-- A call runs a snippet and then a body, where the snippet alone and both of them one behind the
other begin as given. -/
structure RunsInTurn (s : Surroundings σ) (d : MethodDecl) (b b' : Body)
    (snippet : List Instruction) (base : CallStack) (alone woven : Invocation σ) : Prop where
  /-- The snippet runs first, as it does alone. -/
  first : Mirrors s (Frame.Shifted d { b with code := snippet } b' 0) base alone woven
  /-- Alone, the snippet comes past its last instruction only at its end. -/
  exit : ∀ n f w, Stays s base.size n alone ⟨f, base, w⟩ →
    f.pc ≤ snippet.length ∧ (f.code[f.pc]? = none ↔ f.pc = snippet.length)
  /-- A snippet that does not come to its end is all that runs. -/
  only : (∀ n f w, Stays s base.size n alone ⟨f, base, w⟩ → f.pc ≠ snippet.length) →
    (∀ n g w, Stays s base.size n woven ⟨g, base, w⟩ → g.pc < snippet.length) ∧
    ∀ budget fuel, woven.run s budget fuel = alone.run s budget fuel
  /-- Where the snippet comes to its end, the body begins, and the snippet does not run again. -/
  second : ∀ n f w, Stays s base.size n alone ⟨f, base, w⟩ → f.pc = snippet.length →
    ∃ g, Stays s base.size n woven ⟨g, base, w⟩ ∧
      Mirrors s (Frame.Shifted d b b' snippet.length) base ⟨f.restart d b, base, w⟩ ⟨g, base, w⟩ ∧
      (∀ m h w', Stays s base.size m ⟨g, base, w⟩ ⟨h, base, w'⟩ → snippet.length ≤ h.pc) ∧
      ∀ budget fuel, woven.run s budget (n + fuel) = run s budget fuel ⟨f.restart d b, base, w⟩

/-- Side by side, the same instructions are next, up to the targets of branches. -/
theorem next?_of_shifted (hat : SnippetAt b'.code b.code distance) {i j : Invocation σ}
    (h : i.Beside (Frame.Shifted d b b' distance) base j) {x : Instruction}
    (hx : i.next? = some x) : ∃ φ, j.next? = some (x.mapTarget φ) := by
  cases h with
  | @runs f g w hR =>
    have hfetch : b.code[f.pc]? = some x := by
      have hx : f.code[f.pc]? = some x := hx
      rw [hR.code, List.getElem?_toArray] at hx
      exact hx
    refine ⟨(· + UInt32.ofNat distance), ?_⟩
    show g.code[g.pc]? = _
    rw [hR.code_shifted, List.getElem?_toArray, hR.pc]
    exact hat f.pc x hfetch
  | waits current above w hR =>
    refine ⟨id, ?_⟩
    rw [Instruction.mapTarget_id]
    exact hx

/-- A code is mirrored by the same code behind another one. -/
theorem mirrors_shifted (hat : SnippetAt b'.code b.code distance)
    (hfits : ∀ i ∈ b.code, ∀ t, i.target? = some t → distance + t.toNat < UInt32.size)
    {i i' : Invocation σ} (h : i.Beside (Frame.Shifted d b b' distance) base i') :
    Mirrors s (Frame.Shifted d b b' distance) base i i' := by
  have halong := Frame.alongside_shifted s d hat hfits
  intro n j hj
  obtain ⟨j', hj', hbeside⟩ := halong.stays h hj
  refine ⟨j', hj', hbeside, fun x hx ↦ ?_⟩
  obtain ⟨φ, hφ⟩ := next?_of_shifted hat hbeside hx
  obtain ⟨y, hy, hprogress⟩ := halong.step_beside hbeside hx
  obtain rfl : x.mapTarget φ = y := Option.some.inj (hφ.symm.trans hy)
  exact ⟨φ, hφ, hprogress⟩

/-- Beside each frame above `base` in an invocation there is a frame in the one that mirrors it. -/
theorem Mirrors.of_stays {R : Frame → Frame → Prop} {i i' : Invocation σ}
    (h : Mirrors s R base i i') {n : Nat} {f : Frame} {w : World σ}
    (hf : Stays s base.size n i ⟨f, base, w⟩) :
    ∃ g, Stays s base.size n i' ⟨g, base, w⟩ ∧ R f g := by
  obtain ⟨j', hj', hbeside, -⟩ := h n _ hf
  obtain ⟨g, rfl, hR⟩ := hbeside.of_runs
  exact ⟨g, hj', hR⟩

/-- Both codes end together unless the first one ends where the other one goes on. -/
theorem endsWith_of_shifted {i j : Invocation σ}
    (h : i.Beside (Frame.Shifted d b b' distance) base j)
    (hend : ∀ f w, i = ⟨f, base, w⟩ → b.code.length ≤ f.pc →
      b'.code.length ≤ distance + f.pc) : i.EndsWith j := by
  intro hnone
  cases h with
  | @runs f g w hR =>
    have hpast : b.code.length ≤ f.pc := by
      have hnone : f.code[f.pc]? = none := hnone
      rw [hR.code, List.getElem?_toArray, List.getElem?_eq_none_iff] at hnone
      exact hnone
    constructor
    · show g.code[g.pc]? = none
      rw [hR.code_shifted, List.getElem?_toArray, hR.pc, List.getElem?_eq_none_iff]
      exact hend f w rfl hpast
    · simp only [endOfCode, hR.method, hR.method_shifted]
      rfl
  | waits current above w hR => exact ⟨hnone, rfl⟩

end Invocation

/-- Entering a method comes to the same with bodies that declare as many locals, up to the code that
is then run. -/
theorem Entry.method_withBody {σ : Type} (s : Surroundings σ) (d : MethodDecl) (b : Body)
    (cls : ClassId) (args : List Value) (w : World σ) :
    (∃ e : Entry σ, (∀ f w', e ≠ .frame f w') ∧
      ∀ code, method s cls (d.withBody { b with code }) args w = e) ∨
    ∃ f : Frame, f.stack = [] ∧
      ∀ code, method s cls (d.withBody { b with code }) args w =
        .frame (f.restart d { b with code }) w := by
  have hslots : ∀ b', (d.withBody b').argumentSlots = d.argumentSlots := fun _ ↦ rfl
  have hnative : ∀ b', (d.withBody b').isNative = d.isNative := fun _ ↦ rfl
  by_cases hargs : args.length = d.argumentSlots
  · by_cases hn : d.isNative = true
    · refine .inl ⟨native s (w.machine.className cls ++ "." ++ d.name) d.type args w, ?_, ?_⟩
      · intro f w' h
        unfold native at h
        split at h
        · cases h
        · split at h <;> cases h
      · intro code
        simp only [method, hslots, hnative, hn, if_neg (not_not_intro hargs), if_true]
        rfl
    · refine .inr ⟨⟨cls, d, #[], 0,
        args.toArray ++ Array.replicate (b.maxLocals.toNat - args.length) .void, []⟩, rfl, ?_⟩
      intro code
      simp only [method, hslots, hnative, if_neg hn, if_neg (not_not_intro hargs)]
      rfl
  · refine .inl ⟨machineError (.typeMismatch (.arguments d.argumentSlots args.length)) w, ?_, ?_⟩
    · intro f w' h
      cases h
    · intro code
      simp only [method, hslots, ne_eq, hargs, not_false_eq_true, if_true]

namespace Body

variable {σ : Type} {b b' : Body} {snippet : List Instruction}

/-- A body and the body with a snippet in front, where each branch of both fits in its new
place. -/
structure Led (b b' : Body) (snippet : List Instruction) : Prop where
  front : SnippetAt b'.code snippet 0
  rear : SnippetAt b'.code b.code snippet.length
  length : b'.code.length = snippet.length + b.code.length
  branches : ∀ i ∈ snippet, ∀ t, i.target? = some t → t.toNat ≤ snippet.length
  front_fits : ∀ i ∈ snippet, ∀ t, i.target? = some t → 0 + t.toNat < UInt32.size
  rear_fits : ∀ i ∈ b.code, ∀ t, i.target? = some t → snippet.length + t.toNat < UInt32.size

/-- A code stands at the beginning of any that it begins. -/
theorem snippetAt_zero (snippet rest : List Instruction) : SnippetAt (snippet ++ rest) snippet 0 := by
  intro n i hi
  have hid : (fun t : UInt32 ↦ t + UInt32.ofNat 0) = id := by
    funext t
    simp
  rw [hid, Instruction.mapTarget_id, Nat.zero_add,
    List.getElem?_append_left (List.getElem?_eq_some_iff.mp hi).1, hi]

theorem led_insertBefore (h : b.insertBefore snippet = .ok b')
    (hfits : ∀ i ∈ b.code, ∀ t, i.target? = some t → snippet.length + t.toNat < UInt32.size) :
    b.Led b' snippet := by
  obtain ⟨hchecked, hsmall, rfl⟩ := insertBefore_eq_ok.mp h
  have hbranches := target_le_of_checkBranches hchecked
  refine ⟨snippetAt_zero snippet _, snippetAt_relocate fun n _ ↦ ?_, ?_, hbranches,
    fun i hi t ht ↦ ?_, hfits⟩
  · rw [List.getElem?_append_right (Nat.le_add_right _ _), Nat.add_sub_cancel_left]
  · rw [List.length_append, length_relocate]
  · have := hbranches i hi t ht
    omega

namespace Led

open Invocation

variable {s : Surroundings σ} {d : MethodDecl} {base : CallStack}

/-- The snippet in front of a body runs as it does alone. -/
theorem alongside_front (h : b.Led b' snippet) (s : Surroundings σ) (d : MethodDecl) :
    Frame.Alongside s (Frame.Shifted d { b with code := snippet } b' 0) fun _ ↦ True :=
  Frame.alongside_shifted s d h.front h.front_fits

/-- The body behind a snippet runs as it does alone. -/
theorem alongside_rear (h : b.Led b' snippet) (s : Surroundings σ) (d : MethodDecl) :
    Frame.Alongside s (Frame.Shifted d b b' snippet.length) fun _ ↦ True :=
  Frame.alongside_shifted s d h.rear h.rear_fits

/-- A call begins with the snippet as the snippet begins alone. -/
theorem beside_front (b b' : Body) (snippet : List Instruction) (d : MethodDecl) (f : Frame)
    (base : CallStack) (w : World σ) :
    (⟨f.restart d { b with code := snippet }, base, w⟩ : Invocation σ).Beside
      (Frame.Shifted d { b with code := snippet } b' 0) base ⟨f.restart d b', base, w⟩ :=
  .runs w (f.shifted_restart d { b with code := snippet } b')

/-- At the end of the snippet, the body begins with the locals and the stack that are there. -/
theorem beside_rear {f g : Frame} (hR : f.Shifted d { b with code := snippet } b' 0 g)
    (hpc : f.pc = snippet.length) (base : CallStack) (w : World σ) :
    (⟨f.restart d b, base, w⟩ : Invocation σ).Beside (Frame.Shifted d b b' snippet.length) base
      ⟨g, base, w⟩ := by
  refine .runs w ⟨hR.cls, rfl, hR.method_shifted, rfl, hR.code_shifted, ?_,
    fun _ ↦ Nat.zero_le _, hR.locals, hR.stack⟩
  rw [hR.pc, hpc, Nat.zero_add]
  rfl

/-- A snippet that runs alone is inside its code or just at the end. -/
theorem pc_le (h : b.Led b' snippet) {f₀ f : Frame} {n : Nat} {w₀ w : World σ}
    (hf : Stays s base.size n ⟨f₀.restart d { b with code := snippet }, base, w₀⟩ ⟨f, base, w⟩) :
    f.pc ≤ snippet.length ∧ (f.code[f.pc]? = none ↔ f.pc = snippet.length) := by
  obtain ⟨g, -, hR⟩ :=
    (mirrors_shifted h.front h.front_fits (beside_front b b' snippet d f₀ base w₀)).of_stays hf
  have hle : f.pc ≤ snippet.length := hR.pc_le h.branches
  refine ⟨hle, ?_⟩
  rw [hR.code, List.getElem?_toArray, List.getElem?_eq_none_iff]
  show snippet.length ≤ f.pc ↔ f.pc = snippet.length
  omega

/-- Where the snippet alone never comes to its end, nothing else runs. -/
theorem runs_only (h : b.Led b' snippet) {f₀ : Frame} {w₀ : World σ}
    (hnever : ∀ n f w, Stays s base.size n
      ⟨f₀.restart d { b with code := snippet }, base, w₀⟩ ⟨f, base, w⟩ → f.pc ≠ snippet.length) :
    (∀ n g w, Stays s base.size n ⟨f₀.restart d b', base, w₀⟩ ⟨g, base, w⟩ →
      g.pc < snippet.length) ∧
    ∀ budget fuel, run s budget fuel ⟨f₀.restart d b', base, w₀⟩ =
      run s budget fuel ⟨f₀.restart d { b with code := snippet }, base, w₀⟩ := by
  have hbegin := beside_front b b' snippet d f₀ base w₀
  -- The snippet alone is never past its code, so nothing is asked of what stands there.
  have hends : ∀ m i j, Stays s base.size m
      ⟨f₀.restart d { b with code := snippet }, base, w₀⟩ i →
      i.Beside (Frame.Shifted d { b with code := snippet } b' 0) base j → i.EndsWith j := by
    intro m i j hi hbeside
    refine endsWith_of_shifted hbeside fun f w hrun hpast ↦ ?_
    subst hrun
    exact absurd (Nat.le_antisymm (h.pc_le hi).1 hpast) (hnever m f w hi)
  refine ⟨fun n g w hg ↦ ?_, fun budget fuel ↦ ?_⟩
  · obtain ⟨i, hi, hbeside⟩ :=
      (h.alongside_front s d).stays_back hbegin (fun m i j _ ↦ hends m i j) hg
    obtain ⟨f, rfl, hR⟩ := hbeside.of_runs_right
    have hle := (h.pc_le hi).1
    have hne := hnever n f w hi
    rw [hR.pc]
    omega
  · exact (h.alongside_front s d).run_eq hbegin (fun m i j _ ↦ hends m i j) budget

/-- Both bodies are past the end of their codes together. -/
theorem endsWith_rear (h : b.Led b' snippet) {i j : Invocation σ}
    (hij : i.Beside (Frame.Shifted d b b' snippet.length) base j) : i.EndsWith j := by
  refine endsWith_of_shifted hij fun f w _ hpast ↦ ?_
  rw [h.length]
  exact Nat.add_le_add_left hpast _

/-- From where the body begins behind the snippet, it does not go in front of its beginning, and the
rest of the run is its own. -/
theorem runs_rear (h : b.Led b' snippet) {f g : Frame} {w : World σ}
    (hbeside : (⟨f, base, w⟩ : Invocation σ).Beside (Frame.Shifted d b b' snippet.length) base
      ⟨g, base, w⟩) :
    (∀ m g' w', Stays s base.size m ⟨g, base, w⟩ ⟨g', base, w'⟩ → snippet.length ≤ g'.pc) ∧
    ∀ budget fuel, run s budget fuel ⟨g, base, w⟩ = run s budget fuel ⟨f, base, w⟩ := by
  refine ⟨fun m g' w' hg ↦ ?_, fun budget fuel ↦ ?_⟩
  · obtain ⟨i, -, hij⟩ := (h.alongside_rear s d).stays_back hbeside
      (fun _ _ _ _ _ ↦ h.endsWith_rear) hg
    obtain ⟨f', rfl, hR⟩ := hij.of_runs_right
    rw [hR.pc]
    exact Nat.le_add_right _ _
  · exact (h.alongside_rear s d).run_eq hbeside (fun _ _ _ _ _ ↦ h.endsWith_rear) budget

/-- A call of a body with a snippet in front runs the snippet and then the body. -/
theorem runsInTurn (h : b.Led b' snippet) (s : Surroundings σ) (d : MethodDecl) (f₀ : Frame)
    (base : CallStack) (w₀ : World σ) :
    RunsInTurn s d b b' snippet base ⟨f₀.restart d { b with code := snippet }, base, w₀⟩
      ⟨f₀.restart d b', base, w₀⟩ := by
  have hfirst := mirrors_shifted (s := s) h.front h.front_fits
    (beside_front b b' snippet d f₀ base w₀)
  refine ⟨hfirst, fun n f w ↦ h.pc_le, h.runs_only, fun n f w hf hpc ↦ ?_⟩
  obtain ⟨g, hg, hR⟩ := hfirst.of_stays hf
  have hbeside := beside_rear hR hpc base w
  obtain ⟨hbehind, hrun⟩ := h.runs_rear (s := s) hbeside
  refine ⟨g, hg, mirrors_shifted h.rear h.rear_fits hbeside, hbehind, fun budget fuel ↦ ?_⟩
  rw [hg.run_eq, hrun]

end Led

/-- A call of a body with a snippet in front first runs the snippet, as it runs alone on the same
arguments, to a return, to a failure or without end. Where the snippet comes to its end, the call
goes on as the body does from its first instruction with the locals, the stack and the world that
are there, and never comes back to the snippet. The snippet may use whatever locals it likes, since
the frame is the same. -/
theorem insertBefore_runs_in_turn (hinsert : b.insertBefore snippet = .ok b')
    (hfits : ∀ i ∈ b.code, ∀ t, i.target? = some t → snippet.length + t.toNat < UInt32.size)
    (s : Surroundings σ) (d : MethodDecl) (cls : ClassId) (args : List Value) (w : World σ)
    (base : CallStack) :
    (∃ e : Entry σ, (∀ f w', e ≠ .frame f w') ∧ Entry.method s cls (d.withBody b) args w = e ∧
      Entry.method s cls (d.withBody { b with code := snippet }) args w = e ∧
      Entry.method s cls (d.withBody b') args w = e) ∨
    ∃ f : Frame, f.stack = [] ∧
      Entry.method s cls (d.withBody b) args w = .frame (f.restart d b) w ∧
      Entry.method s cls (d.withBody { b with code := snippet }) args w =
        .frame (f.restart d { b with code := snippet }) w ∧
      Entry.method s cls (d.withBody b') args w = .frame (f.restart d b') w ∧
      Invocation.RunsInTurn s d b b' snippet base
        ⟨f.restart d { b with code := snippet }, base, w⟩ ⟨f.restart d b', base, w⟩ := by
  have hb' : b' = { b with code := b'.code } := by
    obtain ⟨-, -, rfl⟩ := insertBefore_eq_ok.mp hinsert
    rfl
  rcases Entry.method_withBody s d b cls args w with ⟨e, he, hall⟩ | ⟨f, hstack, hall⟩
  · refine .inl ⟨e, he, hall b.code, hall snippet, ?_⟩
    rw [hb']
    exact hall b'.code
  · refine .inr ⟨f, hstack, hall b.code, hall snippet, ?_,
      (led_insertBefore hinsert hfits).runsInTurn s d f base w⟩
    rw [hb']
    exact hall b'.code

/-- A body that branches back to its own first instruction. -/
def sampleLoop : Body :=
  ⟨1, 1, [.load 0, .jumpIf .zero 5, .const (.int 0), .store 0, .jump 0, .ret]⟩

/-- A static method with that body. -/
def sampleLooping : MethodDecl :=
  ⟨Flag.static, "settle", ⟨[.prim .int], .void⟩, some sampleLoop⟩

/-- The body behind a snippet that branches to its own end. The snippet's end is where the body
branches back to. -/
def sampleLed : Body :=
  ⟨1, 1, [.load 0, .jumpIf .nonZero 4, .const (.int 7), .store 0,
    .load 0, .jumpIf .zero 9, .const (.int 0), .store 0, .jump 4, .ret]⟩

/-- A call of the sample behind its snippet runs both in turn. -/
theorem sampleLoop_runs_in_turn :
    sampleLoop.insertBefore [.load 0, .jumpIf .nonZero 4, .const (.int 7), .store 0] =
        .ok sampleLed ∧
      ∃ f : Frame, f.stack = [] ∧
        Entry.method ⟨⟨#[]⟩, fun _ ↦ none, fun _ ↦ 0⟩ ⟨0⟩ (sampleLooping.withBody sampleLed) [.int 5]
            (⟨.new .standard [], ()⟩ : World Unit) =
          .frame (f.restart sampleLooping sampleLed) ⟨.new .standard [], ()⟩ ∧
        Invocation.RunsInTurn ⟨⟨#[]⟩, fun _ ↦ none, fun _ ↦ 0⟩ sampleLooping sampleLoop sampleLed
          [.load 0, .jumpIf .nonZero 4, .const (.int 7), .store 0] .empty
          (⟨f.restart sampleLooping ⟨1, 1,
              [.load 0, .jumpIf .nonZero 4, .const (.int 7), .store 0]⟩, .empty,
            ⟨.new .standard [], ()⟩⟩ : Invocation Unit)
          ⟨f.restart sampleLooping sampleLed, .empty, ⟨.new .standard [], ()⟩⟩ := by
  have hinsert : sampleLoop.insertBefore
      [.load 0, .jumpIf .nonZero 4, .const (.int 7), .store 0] = .ok sampleLed := by cbv
  have hfits : ∀ i ∈ sampleLoop.code, ∀ t, i.target? = some t → 4 + t.toNat < UInt32.size := by
    intro i hi t ht
    simp only [sampleLoop, List.mem_cons, List.not_mem_nil, or_false] at hi
    rcases hi with rfl | rfl | rfl | rfl | rfl | rfl <;> cases ht <;> decide
  refine ⟨hinsert, ?_⟩
  rcases insertBefore_runs_in_turn hinsert hfits ⟨⟨#[]⟩, fun _ ↦ none, fun _ ↦ 0⟩ sampleLooping
    ⟨0⟩ [.int 5] (⟨.new .standard [], ()⟩ : World Unit) .empty with
    ⟨e, hnone, hentry, -⟩ | ⟨f, hstack, -, -, hentry, hruns⟩
  · exact absurd hentry.symm (hnone _ _)
  · exact ⟨f, hstack, hentry, hruns⟩

end Body

end Hotswap
