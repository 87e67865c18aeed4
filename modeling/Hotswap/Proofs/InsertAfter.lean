import Hotswap.Proofs.DepthWalk
import Hotswap.Proofs.Parallel
import Hotswap.Proofs.Weaving

/-!
# Snippets before returns

A body into which a snippet was woven before each return runs side by side with the body itself
until that returns. Then it runs the snippet as if the snippet stood alone, and delivers the value
that was to be returned if the snippet leaves the stack as it found it. Errors of the body stay
what they are.
-/

namespace Hotswap

namespace Frame

/-- A frame of a method with some body and one of the method with a body into which a snippet was
woven, at corresponding points: with one stack, and with the same in all the locals that the first
body declares. -/
structure Tracks (d : MethodDecl) (b b' : Body) (snippetLength : Nat) (f g : Frame) : Prop where
  cls : g.cls = f.cls
  method : f.method = d
  method_woven : g.method = { d with body := some b' }
  code : f.code = b.code.toArray
  code_woven : g.code = b'.code.toArray
  pc : g.pc = startOf snippetLength b.code f.pc
  pc_le : f.pc ≤ b.code.length
  stack : g.stack = f.stack
  size : f.locals.size = b.maxLocals.toNat
  size_woven : g.locals.size = b'.maxLocals.toNat
  locals : ∀ n < b.maxLocals.toNat, g.locals[n]? = f.locals[n]?

/-- A frame of a snippet that stands alone and one of a code in which it stands, where the frame
`start` began with it. The locals from `kept` on are as they were then. -/
structure Relocated (snippet : List Instruction) (start : Frame) (kept : Nat) (f g : Frame) :
    Prop where
  code : f.code = snippet.toArray
  counterpart : g = { f with code := start.code, pc := start.pc + f.pc }
  method : f.method = start.method
  pc_le : f.pc ≤ snippet.length
  locals : ∀ n, kept ≤ n → f.locals[n]? = start.locals[n]?

end Frame

namespace Invocation

variable {σ : Type}

/-- The next step hands a value to the innermost waiting frame. -/
def Delivers (s : Surroundings σ) (i : Invocation σ) (returnsValue : Bool) (base : CallStack)
    (v : Value) (w : World σ) : Prop :=
  ∃ x, i.next? = some x ∧ i.step s x = leave returnsValue base v w

/-- From a frame on, an invocation does what a snippet does that stands alone, step by step and also
where it fails or returns. Where the snippet comes to its end with the stack that it began with, the
invocation delivers a value, whatever has become of the world and the locals. -/
def RunsSnippet (s : Surroundings σ) (snippet : List Instruction) (kept : Nat) (start : Frame)
    (base : CallStack) (w : World σ) (v : Value) : Prop :=
  ∀ n i, Stays s base.size n ⟨{ start with code := snippet.toArray, pc := 0 }, base, w⟩ i →
    ∃ j, Stays s base.size n ⟨start, base, w⟩ j ∧
      i.Beside (Frame.Relocated snippet start kept) base j ∧
      (∀ x, i.next? = some x → ∃ y, j.next? = some y ∧
        (i.step s x).Beside (Frame.Relocated snippet start kept) base (j.step s y)) ∧
      ∀ f w', i = ⟨f, base, w'⟩ → f.pc = snippet.length → f.stack = start.stack →
        ∃ m k, m ≤ 1 ∧ Stays s base.size m j k ∧
          k.Delivers s start.method.type.returnsValue base v w'

end Invocation

namespace Frame

variable {σ : Type} {d : MethodDecl} {b b' : Body} {snippet : List Instruction}

/-- A body and the body with a snippet woven in run side by side until the former returns. -/
theorem alongside_tracks (s : Surroundings σ) (d : MethodDecl) (hw : b.Woven b' snippet)
    {returnsValue : Bool}
    (hsuits : ∀ i ∈ b.code, i.Suits b.maxLocals returnsValue b.code.length) :
    Alongside s (Tracks d b b' snippet.length) fun x ↦ x.flow ≠ .leave := by
  constructor
  case push =>
    intro f g v h
    exact ⟨h.cls, h.method, h.method_woven, h.code, h.code_woven, h.pc, h.pc_le,
      congrArg (v :: ·) h.stack, h.size, h.size_woven, h.locals⟩
  case type =>
    intro f g h
    rw [h.method, h.method_woven]
  case leaves =>
    intro x hx
    exact Classical.not_not.mp hx
  case step =>
    intro f g x h hx hflow
    have hfetch : b.code[f.pc]? = some x := by
      rw [h.code, List.getElem?_toArray] at hx
      exact hx
    obtain ⟨hat, htarget⟩ := hw.getElem?_of_flow hfetch hflow
    have hin := hsuits x (List.mem_of_getElem? hfetch)
    have hlt : f.pc < b.code.length := (List.getElem?_eq_some_iff.mp hfetch).1
    have hcounterpart : g.code[g.pc]? = some (x.mapTarget fun t ↦
        UInt32.ofNat (startOf snippet.length b.code t.toNat)) := by
      rw [h.code_woven, List.getElem?_toArray, h.pc]
      exact hat
    refine ⟨_, hcounterpart, fun w ↦ matches_execute ?_ ?_ ?_ ?_ ?_ s w⟩
    · refine ⟨h.cls, ?_, h.stack⟩
      show g.method.signature = f.method.signature
      rw [h.method, h.method_woven]
      rfl
    · intro index hindex
      exact h.locals _ (UInt16.lt_iff_toNat_lt.mp (hin.load index hindex))
    · intro _ stack
      refine ⟨h.cls, h.method, h.method_woven, h.code, h.code_woven, ?_, hlt, rfl, h.size,
        h.size_woven, h.locals⟩
      show g.pc + 1 = startOf snippet.length b.code (f.pc + 1)
      rw [startOf_succ hfetch, Instruction.expandedLength_of_flow hflow, h.pc]
    · intro index hindex v stack
      have hlocal := UInt16.lt_iff_toNat_lt.mp (hin.store index hindex)
      have hleft : index.toNat < f.locals.size := by rwa [h.size]
      have hright : index.toNat < g.locals.size := by
        rw [h.size_woven, hw.maxLocals]
        omega
      refine ⟨⟨fun _ ↦ hright, fun _ ↦ hleft⟩, ?_⟩
      refine ⟨h.cls, h.method, h.method_woven, h.code, h.code_woven, ?_, hlt, rfl, ?_, ?_, ?_⟩
      · show g.pc + 1 = startOf snippet.length b.code (f.pc + 1)
        rw [startOf_succ hfetch, Instruction.expandedLength_of_flow hflow, h.pc]
      · rw [Array.size_setIfInBounds, h.size]
      · rw [Array.size_setIfInBounds, h.size_woven]
      · intro n hn
        simp only [Array.getElem?_setIfInBounds, hleft, hright, if_true]
        split
        · rfl
        · exact h.locals n hn
    · intro t ht stack
      refine ⟨h.cls, h.method, h.method_woven, h.code, h.code_woven, ?_,
        Nat.le_of_lt (htarget t ht), rfl, h.size, h.size_woven, h.locals⟩
      exact hw.toNat_ofNat (hw.startOf_le_length (Nat.le_of_lt (htarget t ht)))

/-- A snippet that stands alone and the same one in a code run side by side. -/
theorem alongside_relocated (s : Surroundings σ) {code : List Instruction} {start : Frame}
    {kept : Nat} (hat : SnippetAt code snippet start.pc) (hcode : start.code = code.toArray)
    (hsmall : start.pc + snippet.length < UInt32.size)
    (hbranches : ∀ i ∈ snippet, ∀ t, i.target? = some t → t.toNat ≤ snippet.length)
    (hstores : ∀ index, .store index ∈ snippet → index.toNat < kept) :
    Alongside s (Relocated snippet start kept) fun _ ↦ True := by
  constructor
  case push =>
    rintro f g v ⟨hf, rfl, hmethod, hpc, hlocals⟩
    exact ⟨hf, rfl, hmethod, hpc, hlocals⟩
  case type =>
    rintro f g ⟨-, rfl, -, -, -⟩
    rfl
  case leaves =>
    intro x hx
    exact absurd trivial hx
  case step =>
    rintro f g x ⟨hf, rfl, hmethod, hpc, hlocals⟩ hx -
    have hfetch : snippet[f.pc]? = some x := by
      rw [hf, List.getElem?_toArray] at hx
      exact hx
    have hlt : f.pc < snippet.length := (List.getElem?_eq_some_iff.mp hfetch).1
    have hcounterpart : start.code[start.pc + f.pc]? =
        some (x.mapTarget (· + UInt32.ofNat start.pc)) := by
      rw [hcode, List.getElem?_toArray]
      exact hat f.pc x hfetch
    have halike : Alike { f with pc := f.pc + 1 }
        { f with code := start.code, pc := start.pc + f.pc + 1 } := ⟨rfl, rfl, rfl⟩
    refine ⟨_, hcounterpart, fun w ↦ matches_execute halike (fun _ _ ↦ rfl) ?_ ?_ ?_ s w⟩
    · intro _ stack
      exact ⟨hf, rfl, hmethod, hlt, hlocals⟩
    · rintro index rfl v stack
      refine ⟨Iff.rfl, hf, rfl, hmethod, hlt, fun n hn ↦ ?_⟩
      have hindex := hstores index (List.mem_of_getElem? hfetch)
      rw [Array.getElem?_setIfInBounds, if_neg (by omega)]
      exact hlocals n hn
    · intro t ht stack
      have hle := hbranches x (List.mem_of_getElem? hfetch) t ht
      have hsum := toNat_add_ofNat (Nat.lt_of_le_of_lt (Nat.add_le_add_left hle start.pc) hsmall)
      refine ⟨hf, ?_, hmethod, hle, hlocals⟩
      simp only [goTo, hsum]

end Frame

/-! ### The beginning of a call -/

private theorem getElem?_initialLocals {args : List Value} {declared n : Nat} (h : n < declared) :
    (args.toArray ++ Array.replicate (declared - args.length) Value.void)[n]? =
      some (args.getD n .void) := by
  rw [Array.getElem?_append, List.size_toArray]
  split
  · next hn => simp [hn]
  · next hn =>
    rw [Array.getElem?_replicate, if_pos (by omega), List.getD_eq_getElem?_getD,
      List.getElem?_eq_none (by omega), Option.getD_none]

/-- A call of a method with a snippet woven in begins beside the call of the method, unless neither
call comes to begin. -/
theorem Entry.tracks_method {σ : Type} (s : Surroundings σ) {b b' : Body}
    {snippet : List Instruction} {d : MethodDecl} (hw : b.Woven b' snippet)
    (hbody : d.body = some b) (hslots : d.argumentSlots ≤ b.maxLocals.toNat) (cls : ClassId)
    (args : List Value) (w : World σ) :
    (∀ f w', method s cls d args w ≠ .frame f w') ∧
        method s cls { d with body := some b' } args w = method s cls d args w ∨
      ∃ f g, method s cls d args w = .frame f w ∧
        method s cls { d with body := some b' } args w = .frame g w ∧
        f.Tracks d b b' snippet.length g := by
  have hslots' : ({ d with body := some b' } : MethodDecl).argumentSlots = d.argumentSlots := rfl
  have hnative' : ({ d with body := some b' } : MethodDecl).isNative = d.isNative := rfl
  unfold method
  rw [hslots', hnative']
  by_cases hargs : args.length = d.argumentSlots
  · rw [if_neg (not_not_intro hargs), if_neg (not_not_intro hargs)]
    by_cases hnative : d.isNative = true
    · rw [if_pos hnative, if_pos hnative]
      refine .inl ⟨fun f w' h ↦ ?_, rfl⟩
      unfold native at h
      split at h
      · cases h
      · split at h <;> cases h
    · rw [if_neg hnative, if_neg hnative]
      simp only [hbody]
      have hmax := hw.maxLocals
      refine .inr ⟨_, _, rfl, rfl, rfl, rfl, rfl, rfl, rfl, startOf_zero.symm, Nat.zero_le _, rfl,
        ?_, ?_, ?_⟩
      · simp only [Array.size_append, List.size_toArray, Array.size_replicate]
        omega
      · simp only [Array.size_append, List.size_toArray, Array.size_replicate]
        omega
      · intro n hn
        rw [getElem?_initialLocals hn, getElem?_initialLocals (by omega)]
  · rw [if_pos hargs, if_pos hargs]
    exact .inl ⟨fun _ _ h ↦ (by cases h), rfl⟩

namespace Invocation

variable {σ : Type} {s : Surroundings σ} {d : MethodDecl} {b b' : Body}
  {snippet : List Instruction} {base : CallStack}

/-! ### Errors and returns -/

/-- Side by side, the same instructions are next, up to the targets of branches. -/
theorem next?_of_tracks (hw : b.Woven b' snippet) {i j : Invocation σ}
    (h : i.Beside (Frame.Tracks d b b' snippet.length) base j) {x : Instruction}
    (hx : i.next? = some x) (hflow : x.flow ≠ .leave) :
    ∃ φ, j.next? = some (x.mapTarget φ) := by
  cases h with
  | @runs f g w hR =>
    have hfetch : b.code[f.pc]? = some x := by
      have hx : f.code[f.pc]? = some x := hx
      rw [hR.code, List.getElem?_toArray] at hx
      exact hx
    refine ⟨fun t ↦ UInt32.ofNat (startOf snippet.length b.code t.toNat), ?_⟩
    show g.code[g.pc]? = _
    rw [hR.code_woven, List.getElem?_toArray, hR.pc]
    exact (hw.getElem?_of_flow hfetch hflow).1
  | waits current above w hR =>
    refine ⟨id, ?_⟩
    rw [Instruction.mapTarget_id]
    exact hx

/-- Leaving a call ends an invocation with a value only. -/
theorem ok_of_leave {returnsValue : Bool} {callers : CallStack} {v : Value} {w w' : World σ}
    {result : Except Failure Value} (h : leave returnsValue callers v w = .ended result w') :
    result = .ok v := by
  unfold leave at h
  split at h
  · cases h
    rfl
  · cases h

/-- Where a return fails for want of a value, so does the store that stands in its place. -/
theorem finishes_of_returning (hw : b.Woven b' snippet) {f g : Frame} {x : Instruction}
    {w w' : World σ} {result : Except Failure Value}
    (hR : f.Tracks d b b' snippet.length g) (hx : f.code[f.pc]? = some x) (hflow : x.flow = .leave)
    (hstep : (⟨f, base, w⟩ : Invocation σ).step s x = .ended result w')
    (herror : ∀ v, result ≠ .ok v) : Finishes s ⟨g, base, w⟩ result w' := by
  have hfetch : b.code[f.pc]? = some x := by
    rw [hR.code, List.getElem?_toArray] at hx
    exact hx
  cases x with
  | ret => exact absurd (ok_of_leave hstep) (herror _)
  | retValue =>
    simp only [Invocation.step, Frame.execute, Outcome.pop1] at hstep
    split at hstep
    · exact absurd (ok_of_leave hstep) (herror _)
    · next hnil =>
      obtain ⟨hstore, -⟩ := hw.retValue hfetch
      have hnext : g.code[g.pc]? = some (.store b.maxLocals) := by
        rw [hR.code_woven, List.getElem?_toArray, hR.pc]
        exact hstore
      refine .ended hnext ?_
      have halike : Frame.Alike { f with pc := f.pc + 1 } { g with pc := g.pc + 1 } := by
        refine ⟨hR.cls, ?_, hR.stack⟩
        show g.method.signature = f.method.signature
        rw [hR.method, hR.method_woven]
        rfl
      have hnil' : g.stack = [] := hR.stack.trans hnil
      have hunder := Outcome.transfer_underflow halike w
      simp only [hnil, hnil'] at hunder hstep
      simp only [Invocation.step, Frame.execute, Frame.store, Outcome.pop1, hnil']
      rw [hunder]
      exact hstep
  | _ => cases hflow

/-- A body that fails does so side by side with the body that has a snippet woven in. -/
theorem finishes_of_tracks (hw : b.Woven b' snippet) {returnsValue : Bool}
    (hsuits : ∀ i ∈ b.code, i.Suits b.maxLocals returnsValue b.code.length) {i j : Invocation σ}
    (h : i.Beside (Frame.Tracks d b b' snippet.length) base j) {result : Except Failure Value}
    {w : World σ} (hi : i.Finishes s result w) (herror : ∀ v, result ≠ .ok v) :
    j.Finishes s result w := by
  cases hi with
  | pastEnd hnone =>
    cases h with
    | @runs f g w hR =>
      have hend : f.pc = b.code.length := by
        have hnone : f.code[f.pc]? = none := hnone
        rw [hR.code, List.getElem?_toArray, List.getElem?_eq_none_iff] at hnone
        exact Nat.le_antisymm hR.pc_le hnone
      have hsignature : endOfCode ⟨f, base, w⟩ = endOfCode ⟨g, base, w⟩ := by
        simp only [endOfCode, hR.method, hR.method_woven]
        rfl
      rw [hsignature]
      refine .pastEnd ?_
      show g.code[g.pc]? = none
      rw [hR.code_woven, List.getElem?_toArray, hR.pc, hend, ← hw.length]
      exact List.getElem?_eq_none (Nat.le_refl _)
    | waits current above w hR => exact .pastEnd hnone
  | @ended x _ _ hnext hstep =>
    rcases (Frame.alongside_tracks s d hw hsuits).beside_step h hnext with
      ⟨y, hy, hprogress⟩ | ⟨hflow, hcallers⟩
    · rw [hstep] at hprogress
      generalize hstep' : j.step s y = p at hprogress
      cases hprogress with
      | ended => exact .ended hy hstep'
    · cases h with
      | runs w hR =>
        exact finishes_of_returning hw hR hnext (Classical.not_not.mp hflow) hstep herror
      | waits current above w hR =>
        have hsize := congrArg CallStack.size hcallers
        simp only [CallStack.size_pushAll, CallStack.push] at hsize
        omega

/-- A frame that is about to return delivers its value with the next step. -/
theorem delivers_of_returns {f : Frame} {v : Value} {rest : List Value} (h : f.Returns v rest)
    (w : World σ) : Delivers s ⟨f, base, w⟩ f.method.type.returnsValue base v w := by
  rcases h with ⟨hret, rfl, -⟩ | ⟨hret, hstack⟩
  · exact ⟨.ret, hret, rfl⟩
  · refine ⟨.retValue, hret, ?_⟩
    simp only [Invocation.step, Frame.execute, Outcome.pop1, hstack]
    rfl

/-- A snippet runs in a code as it does alone. What follows it there decides what is delivered. -/
theorem runsSnippet_of_end {code : List Instruction} {start : Frame} {kept : Nat} {w : World σ}
    {v : Value} (hat : SnippetAt code snippet start.pc) (hcode : start.code = code.toArray)
    (hsmall : start.pc + snippet.length < UInt32.size)
    (hbranches : ∀ i ∈ snippet, ∀ t, i.target? = some t → t.toNat ≤ snippet.length)
    (hstores : ∀ index, .store index ∈ snippet → index.toNat < kept)
    (hend : ∀ (f g : Frame) (w' : World σ), Frame.Relocated snippet start kept f g →
      f.pc = snippet.length → f.stack = start.stack →
        ∃ m k, m ≤ 1 ∧ Stays s base.size m ⟨g, base, w'⟩ k ∧
          k.Delivers s start.method.type.returnsValue base v w') :
    RunsSnippet s snippet kept start base w v := by
  have halong := Frame.alongside_relocated s hat hcode hsmall hbranches hstores
  intro n i hi
  have hfirst : Frame.Relocated snippet start kept
      { start with code := snippet.toArray, pc := 0 } start :=
    ⟨rfl, rfl, rfl, Nat.zero_le _, fun _ _ ↦ rfl⟩
  obtain ⟨j, hj, hbeside⟩ := halong.stays (.runs w hfirst) hi
  refine ⟨j, hj, hbeside, fun x hx ↦ ?_, ?_⟩
  · rcases halong.beside_step hbeside hx with hstep | ⟨hno, -⟩
    · exact hstep
    · exact absurd trivial hno
  · rintro f w' rfl hpc hstack
    obtain ⟨g, rfl, hg⟩ := hbeside.of_runs
    exact hend f g w' hg hpc hstack

/-- Before a return without a value, the snippet runs on the same stack. -/
theorem runsSnippet_of_ret (hw : b.Woven b' snippet)
    (hstores : ∀ index, .store index ∈ snippet → index.toNat < b.maxLocals.toNat) {f g : Frame}
    (hR : f.Tracks d b b' snippet.length g) (hret : f.code[f.pc]? = some .ret) (w : World σ) :
    RunsSnippet s snippet b.maxLocals.toNat g base w .void := by
  have hfetch : b.code[f.pc]? = some .ret := by
    rw [hR.code, List.getElem?_toArray] at hret
    exact hret
  obtain ⟨hat, hafter⟩ := hw.ret hfetch
  rw [← hR.pc] at hat hafter
  have hlt := (List.getElem?_eq_some_iff.mp hafter).1
  have hsmall := hw.small
  refine runsSnippet_of_end hat hR.code_woven (by omega) hw.branches hstores ?_
  rintro f' _ w' ⟨-, rfl, hmethod, -, -⟩ hpc -
  refine ⟨0, _, Nat.zero_le _, .refl _, .ret, ?_, ?_⟩
  · show g.code[g.pc + f'.pc]? = some .ret
    rw [hR.code_woven, List.getElem?_toArray, hpc]
    exact hafter
  · rw [← hmethod]
    rfl

/-- Before a return with a value, the value is stored, and the snippet runs on the stack below
it. -/
theorem runsSnippet_of_retValue (hw : b.Woven b' snippet)
    (hstores : ∀ index, .store index ∈ snippet → index.toNat < b.maxLocals.toNat) {f g : Frame}
    (hR : f.Tracks d b b' snippet.length g) (hret : f.code[f.pc]? = some .retValue) {v : Value}
    {rest : List Value} (hstack : f.stack = v :: rest) (w : World σ) :
    ∃ h : Frame, Stays s base.size 1 ⟨g, base, w⟩ ⟨h, base, w⟩ ∧ h.method = g.method ∧
      h.stack = rest ∧ (∀ n < b.maxLocals.toNat, h.locals[n]? = g.locals[n]?) ∧
      RunsSnippet s snippet b.maxLocals.toNat h base w v := by
  have hfetch : b.code[f.pc]? = some .retValue := by
    rw [hR.code, List.getElem?_toArray] at hret
    exact hret
  obtain ⟨hstore, hat, hload, hleave⟩ := hw.retValue hfetch
  rw [← hR.pc] at hstore hat hload hleave
  have hlt := (List.getElem?_eq_some_iff.mp hload).1
  have hsmall := hw.small
  have hspill : b.maxLocals.toNat < g.locals.size := by
    have hreturns : b.returnsSomewhere = true := by
      rw [Body.returnsSomewhere, List.contains_iff_mem]
      exact List.mem_of_getElem? hfetch
    rw [hR.size_woven, hw.maxLocals, if_pos hreturns]
    omega
  have hnext : g.code[g.pc]? = some (.store b.maxLocals) := by
    rw [hR.code_woven, List.getElem?_toArray]
    exact hstore
  refine ⟨{ g with
    pc := g.pc + 1, stack := rest, locals := g.locals.setIfInBounds b.maxLocals.toNat v }, ?_, rfl,
    rfl, ?_, ?_⟩
  · refine .head hnext ?_ (Nat.le_refl _) (.refl _)
    simp only [Invocation.step, Frame.execute, Frame.store, Outcome.pop1, hR.stack, hstack,
      if_pos hspill]
    rfl
  · intro n hn
    rw [Array.getElem?_setIfInBounds, if_neg (by omega)]
  · refine runsSnippet_of_end hat hR.code_woven (by show g.pc + 1 + _ < _; omega) hw.branches
      hstores ?_
    rintro f' _ w' ⟨-, rfl, hmethod, -, hkept⟩ hpc hrest
    have hvalue : f'.locals[b.maxLocals.toNat]? = some v := by
      rw [hkept _ (Nat.le_refl _), Array.getElem?_setIfInBounds, if_pos rfl, if_pos hspill]
    have hfirst : g.code[g.pc + 1 + f'.pc]? = some (.load b.maxLocals) := by
      rw [hR.code_woven, List.getElem?_toArray, hpc]
      exact hload
    have hsecond : g.code[g.pc + 1 + f'.pc + 1]? = some .retValue := by
      rw [hR.code_woven, List.getElem?_toArray, hpc]
      exact hleave
    refine ⟨1, ⟨{ f' with code := g.code, pc := g.pc + 1 + f'.pc + 1, stack := v :: f'.stack },
      base, w'⟩, Nat.le_refl _, .head hfirst ?_ (Nat.le_refl _) (.refl _), .retValue, hsecond, ?_⟩
    · simp only [Invocation.step, Frame.execute, Frame.load, hvalue]
      rfl
    · rw [← hmethod]
      rfl

end Invocation

/-- A method with a snippet woven in before its returns runs side by side with the method itself,
through the same instructions, with the same stack, world and declared locals, and it fails as the
method does. Where the method is about to return, the snippet runs on the rest of the stack, as it
does alone; and if it comes to its end with that stack, the value is delivered that the method
delivers. -/
theorem Body.insertAfter_runs_at_returns {σ : Type} {b b' : Body} {snippet : List Instruction}
    {d : MethodDecl} {reached : UInt16} (hbody : d.body = some b)
    (hdepth : b.reachedDepth d.argumentSlots d.type.returnsValue = .ok reached)
    (hinsert : b.insertAfter snippet = .ok b')
    (hlocals : ∀ index, .load index ∈ snippet ∨ .store index ∈ snippet → index < b.maxLocals)
    (s : Surroundings σ) (cls : ClassId) (args : List Value) (w₀ : World σ) (base : CallStack) :
    (∀ f w, Entry.method s cls d args w₀ ≠ .frame f w) ∧
        Entry.method s cls { d with body := some b' } args w₀ = Entry.method s cls d args w₀ ∨
      ∃ f f', Entry.method s cls d args w₀ = .frame f w₀ ∧
        Entry.method s cls { d with body := some b' } args w₀ = .frame f' w₀ ∧
        ∀ n i, Invocation.Stays s base.size n ⟨f, base, w₀⟩ i →
          ∃ i', Invocation.Stays s base.size n ⟨f', base, w₀⟩ i' ∧
            i.Beside (Frame.Tracks d b b' snippet.length) base i' ∧
            (∀ x, i.next? = some x → x.flow ≠ .leave → ∃ φ, i'.next? = some (x.mapTarget φ)) ∧
            -- The next step stays in the call, or it fails, or it returns.
            (∀ x, i.next? = some x →
              (∃ j, i.step s x = .running j ∧ base.size ≤ j.callers.size) ∨
                (∃ e w, i.step s x = .ended (.error e) w) ∨
                ∃ g w v rest, i = ⟨g, base, w⟩ ∧ g.Returns v rest) ∧
            (∀ e w, i.Finishes s (.error e) w → i'.Finishes s (.error e) w) ∧
            ∀ g w v rest, i = ⟨g, base, w⟩ → g.Returns v rest →
              i.Delivers s d.type.returnsValue base v w ∧
              ∃ m h, m ≤ 1 ∧ Invocation.Stays s base.size m i' ⟨h, base, w⟩ ∧
                h.method = { d with body := some b' } ∧ h.stack = rest ∧
                (∀ n < b.maxLocals.toNat, h.locals[n]? = g.locals[n]?) ∧
                Invocation.RunsSnippet s snippet b.maxLocals.toNat h base w v := by
  obtain ⟨depths, hchecked⟩ := checked_of_reachedDepth hdepth
  have hw := woven_insertAfter hinsert
  have hstores : ∀ index, .store index ∈ snippet → index.toNat < b.maxLocals.toNat :=
    fun index h ↦ UInt16.lt_iff_toNat_lt.mp (hlocals index (.inr h))
  have halong := Frame.alongside_tracks s d hw hchecked.suits
  rcases Entry.tracks_method s hw hbody hchecked.slots_le cls args w₀ with
    hneither | ⟨f, f', hentry, hentry', htracks⟩
  · exact .inl hneither
  refine .inr ⟨f, f', hentry, hentry', fun n i hi ↦ ?_⟩
  obtain ⟨i', hi', hbeside⟩ := halong.stays (.runs w₀ htracks) hi
  refine ⟨i', hi', hbeside, fun x ↦ Invocation.next?_of_tracks hw hbeside,
    fun x ↦ hbeside.stays_or_returns, fun e w hend ↦ ?_, ?_⟩
  · exact Invocation.finishes_of_tracks hw hchecked.suits hbeside hend fun v ↦ by simp
  · rintro g w v rest rfl hreturns
    obtain ⟨g', rfl, hR⟩ := hbeside.of_runs
    refine ⟨hR.method ▸ Invocation.delivers_of_returns hreturns w, ?_⟩
    rcases hreturns with ⟨hret, rfl, hstack⟩ | ⟨hret, hstack⟩
    · exact ⟨0, g', Nat.zero_le _, .refl _, hR.method_woven, hR.stack.trans hstack, hR.locals,
        Invocation.runsSnippet_of_ret hw hstores hR hret w⟩
    · obtain ⟨h, hstays, hm, hrest, hkept, hruns⟩ :=
        Invocation.runsSnippet_of_retValue hw hstores hR hret hstack w
      refine ⟨1, h, Nat.le_refl _, hstays, ?_, hrest, fun n hn ↦ ?_, hruns⟩
      · rw [hm, hR.method_woven]
      · rw [hkept n hn, hR.locals n hn]

namespace Body

/-- A body with a branch and two returns. -/
def sample : Body :=
  ⟨1, 1, [.load 0, .jumpIf .zero 4, .const (.int 1), .retValue, .load 0, .retValue]⟩

/-- A static method with that body. -/
def sampleMethod : MethodDecl :=
  ⟨Flag.static, "choose", ⟨[.prim .int], .prim .int⟩, some sample⟩

/-- The body with a snippet woven in that overwrites the argument. -/
def sampleWoven : Body :=
  ⟨2, 1, [.load 0, .jumpIf .zero 8, .const (.int 1),
    .store 1, .const (.int 9), .store 0, .load 1, .retValue,
    .load 0, .store 1, .const (.int 9), .store 0, .load 1, .retValue]⟩

/-- A call of the sample runs beside one of the sample with its snippet. -/
theorem sample_insertAfter_runs :
    sample.insertAfter [.const (.int 9), .store 0] = .ok sampleWoven ∧
      ∃ f f', Entry.method ⟨⟨#[]⟩, fun _ ↦ none, fun _ ↦ 0⟩ ⟨0⟩ sampleMethod [.int 5]
          (⟨.new .standard [], ()⟩ : World Unit) = .frame f ⟨.new .standard [], ()⟩ ∧
        ∀ n i, Invocation.Stays ⟨⟨#[]⟩, fun _ ↦ none, fun _ ↦ 0⟩ 0 n
            (⟨f, .empty, ⟨.new .standard [], ()⟩⟩ : Invocation Unit) i →
          ∃ i', Invocation.Stays ⟨⟨#[]⟩, fun _ ↦ none, fun _ ↦ 0⟩ 0 n
              ⟨f', .empty, ⟨.new .standard [], ()⟩⟩ i' ∧
            i.Beside (Frame.Tracks sampleMethod sample sampleWoven 2) .empty i' := by
  have hinsert : sample.insertAfter [.const (.int 9), .store 0] = .ok sampleWoven := by cbv
  have hdepth : sample.reachedDepth sampleMethod.argumentSlots
      sampleMethod.type.returnsValue = .ok 1 := by cbv
  have hlocals : ∀ index : UInt16,
      .load index ∈ [Instruction.const (.int 9), .store 0] ∨
        .store index ∈ [Instruction.const (.int 9), .store 0] → index < sample.maxLocals := by
    intro index h
    simp at h
    subst h
    decide
  refine ⟨hinsert, ?_⟩
  rcases insertAfter_runs_at_returns rfl hdepth hinsert hlocals
    ⟨⟨#[]⟩, fun _ ↦ none, fun _ ↦ 0⟩ ⟨0⟩ [.int 5] (⟨.new .standard [], ()⟩ : World Unit)
    .empty with ⟨hnone, -⟩ | ⟨f, f', hf, -, hruns⟩
  · exact absurd rfl (hnone _ _)
  · refine ⟨f, f', hf, fun n i hi ↦ ?_⟩
    obtain ⟨i', hi', hbeside, -⟩ := hruns n i hi
    exact ⟨i', hi', hbeside⟩

end Body

end Hotswap
