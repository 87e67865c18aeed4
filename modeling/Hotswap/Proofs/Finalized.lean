import Hotswap.Pool.Editable
import Hotswap.Proofs.ClassImage
import Hotswap.Proofs.Rollback
import Hotswap.Proofs.Weaving

/-!
# What editing leaves in an image

A type that is finalized verifies, but verification does not look at flags and types. Whether the
image is read back depends on what the edits brought in: flags without a meaning and types without
a descriptor can be edited in, verified and written, and only the reader refuses them. Edits that
bring in nothing of the kind keep a class well-formed, and its image is read back as the class that
was finalized.
-/

namespace Hotswap

/-! ### Code -/

/-- Changing targets keeps the types that an instruction mentions. -/
@[simp] theorem Instruction.wellFormed_mapTarget (f : UInt32 → UInt32) (i : Instruction) :
    (i.mapTarget f).WellFormed ↔ i.WellFormed := by
  cases i <;> rfl

/-- The types that the instructions of a body mention are describable. -/
def Body.WellFormed (b : Body) : Prop := ∀ i ∈ b.code, i.WellFormed

theorem wellFormed_of_mem_relocate {distance : Nat} {code : List Instruction}
    (h : ∀ i ∈ code, i.WellFormed) : ∀ i ∈ relocate distance code, i.WellFormed := by
  intro i hi
  obtain ⟨j, hj, rfl⟩ := List.mem_map.mp hi
  rw [Instruction.wellFormed_mapTarget]
  exact h j hj

/-- A snippet before the code brings in its own types only. -/
theorem Body.wellFormed_insertBefore {b b' : Body} {snippet : List Instruction}
    (hb : b.WellFormed) (hs : ∀ i ∈ snippet, i.WellFormed) (h : b.insertBefore snippet = .ok b') :
    b'.WellFormed := by
  obtain ⟨-, -, rfl⟩ := Body.insertBefore_eq_ok.mp h
  intro i hi
  rcases List.mem_append.mp hi with hi | hi
  · exact hs i hi
  · exact wellFormed_of_mem_relocate hb i hi

/-- What stands for an instruction mentions its types and those of the snippet. -/
theorem Instruction.wellFormed_of_mem_expand {i : Instruction} {snippet part : List Instruction}
    {spill : UInt16} {starts : Array Nat} {index : Nat} (hi : i.WellFormed)
    (hs : ∀ j ∈ snippet, j.WellFormed) (h : i.expand snippet spill starts index = .ok part) :
    ∀ j ∈ part, j.WellFormed := by
  intro j hj
  cases i with
  | ret =>
    cases h
    rcases List.mem_append.mp hj with hj | hj
    · exact wellFormed_of_mem_relocate hs j hj
    · rw [List.mem_singleton.mp hj]
      trivial
  | retValue =>
    cases h
    rcases List.mem_append.mp hj with hj | hj
    · rcases List.mem_cons.mp hj with rfl | hj
      · trivial
      · exact wellFormed_of_mem_relocate hs j hj
    · simp only [List.mem_cons, List.not_mem_nil, or_false] at hj
      rcases hj with rfl | rfl <;> trivial
  | jump t | jumpIf c t =>
    simp only [expand, target?] at h
    split at h
    · cases h
      rw [List.mem_singleton.mp hj, wellFormed_mapTarget]
      trivial
    · cases h
  | _ =>
    cases h
    rw [List.mem_singleton.mp hj]
    exact hi

/-- A snippet before each return brings in its own types only. -/
theorem Body.wellFormed_insertAfter {b b' : Body} {snippet : List Instruction}
    (hb : b.WellFormed) (hs : ∀ i ∈ snippet, i.WellFormed) (h : b.insertAfter snippet = .ok b') :
    b'.WellFormed := by
  have hw := Body.woven_insertAfter h
  intro j hj
  obtain ⟨pos, hpos⟩ := List.mem_iff_getElem?.mp hj
  have hlt := (List.getElem?_eq_some_iff.mp hpos).1
  rw [hw.length] at hlt
  obtain ⟨k, i, n, hi, hn, rfl⟩ := exists_startOf hlt
  obtain ⟨part, hexpand, hpart⟩ := hw.part k i hi
  rw [← Instruction.length_expand hexpand] at hn
  rw [hpart n hn] at hpos
  exact Instruction.wellFormed_of_mem_expand (hb i (List.mem_of_getElem? hi)) hs hexpand j
    (List.mem_of_getElem? hpos)

/-! ### Classes -/

namespace ClassDecl

theorem wellFormed_withReachedDepth {c : ClassDecl} {m m' : MethodDecl} (hm : m.WellFormed)
    (h : c.withReachedDepth m = .ok m') : m'.WellFormed := by
  rw [withReachedDepth] at h
  split at h
  · cases h
    exact hm
  · next b hb =>
    obtain ⟨reached, -, rfl⟩ := map_eq_ok.mp h
    refine ⟨hm.flags, hm.type, fun b' hb' ↦ ?_⟩
    cases hb'
    exact hm.code b hb

/-- Computing the depths keeps flags and types. -/
theorem WellFormed.withReachedDepths {c c' : ClassDecl} (hc : c.WellFormed)
    (h : c.withReachedDepths = .ok c') : c'.WellFormed := by
  obtain ⟨methods, hmethods, rfl⟩ := map_eq_ok.mp h
  refine ⟨hc.flags, hc.fields, fun m' hm' ↦ ?_⟩
  obtain ⟨m, hm, hm'⟩ := exists_of_mem_mapM hmethods m' hm'
  exact wellFormed_withReachedDepth (hc.methods m hm) hm'

end ClassDecl

/-! ### Edits -/

namespace Editable

/-- What can be done to a type: an edit, thawing or finalizing. The code and the frame of a body can
be changed at will. -/
inductive Change where
  | addField (f : FieldDecl)
  | addMethod (m : MethodDecl)
  | changeBody (id : MethodId) (f : Body → Body)
  | insertBefore (id : MethodId) (snippet : List Instruction)
  | insertAfter (id : MethodId) (snippet : List Instruction)
  | setBody (id : MethodId) (code : List Instruction)
  | setFlags (id : MethodId) (flags : UInt16)
  | thaw
  | finalize

/-- What a change brings in has known flags and describable types. -/
def Change.Expressible : Change → Prop
  | addField f => f.WellFormed
  | addMethod m => m.WellFormed
  | changeBody _ f => ∀ b, b.WellFormed → (f b).WellFormed
  | insertBefore _ snippet | insertAfter _ snippet => ∀ i ∈ snippet, i.WellFormed
  | setBody _ code => ∀ i ∈ code, i.WellFormed
  | setFlags _ flags => Flag.within flags Flag.ofMember = true
  | thaw | finalize => True

/-- The outcome of an edit, or the type as it was when the edit is refused. -/
def accept (t : Editable) : Except Error Editable → Editable
  | .ok t' => t'
  | .error _ => t

/-- A type after a change. -/
def after (t : Editable) : Change → Editable
  | .addField f => t.accept (t.addField f)
  | .addMethod m => t.accept (Prod.fst <$> t.addMethod m)
  | .changeBody id f => t.accept (t.modifyBody id fun b ↦ .ok (f b))
  | .insertBefore id snippet => t.accept (t.insertBefore id snippet)
  | .insertAfter id snippet => t.accept (t.insertAfter id snippet)
  | .setBody id code => t.accept (t.setBody id code)
  | .setFlags id flags => t.accept (t.setFlags id flags)
  | .thaw => t.thaw
  | .finalize => t.finalize.2

/-- A type after changes in turn. -/
def afterAll (t : Editable) (changes : List Change) : Editable := changes.foldl after t

variable {t t' : Editable}

/-- The type with a method in the place of the one at a position. -/
def withMethod (t : Editable) (id : MethodId) (m : MethodDecl) : Editable :=
  { t with decl := { t.decl with methods := t.decl.methods.set id.index m } }

/-! What an edit that succeeds makes of a type. -/

theorem checkThawed_eq_ok {u : Unit} : t.checkThawed = .ok u ↔ t.frozen = false := by
  cases hfrozen : t.frozen <;> simp [checkThawed, hfrozen]

theorem modifyMethod_eq_ok {id : MethodId} {f : MethodDecl → Except Error MethodDecl}
    (h : t.modifyMethod id f = .ok t') : t.frozen = false ∧
      ∃ m m', t.method? id = some m ∧ f m = .ok m' ∧ t' = t.withMethod id m' := by
  obtain ⟨_, hthawed, h⟩ := bind_eq_ok.mp h
  refine ⟨checkThawed_eq_ok.mp hthawed, ?_⟩
  split at h
  · cases h
  · next m hm =>
    obtain ⟨m', hm', h⟩ := bind_eq_ok.mp h
    cases h
    exact ⟨m, m', hm, hm', rfl⟩

theorem modifyBody_eq_ok {id : MethodId} {f : Body → Except Error Body}
    (h : t.modifyBody id f = .ok t') : t.frozen = false ∧
      ∃ m b b', t.method? id = some m ∧ m.body = some b ∧ f b = .ok b' ∧
        t' = t.withMethod id { m with body := some b' } := by
  obtain ⟨hthawed, m, m', hm, hm', rfl⟩ := modifyMethod_eq_ok h
  split at hm'
  · next b hb =>
    obtain ⟨b', hb', rfl⟩ := map_eq_ok.mp hm'
    exact ⟨hthawed, m, b, b', hm, hb, hb', rfl⟩
  · cases hm'

theorem addField_eq_ok {f : FieldDecl} (h : t.addField f = .ok t') :
    t.frozen = false ∧ (∀ g ∈ t.decl.fields, g.name ≠ f.name) ∧
      t' = { t with decl := { t.decl with fields := t.decl.fields ++ [f] } } := by
  obtain ⟨_, hthawed, h⟩ := bind_eq_ok.mp h
  split at h
  · cases h
  · next hnew =>
    cases h
    refine ⟨checkThawed_eq_ok.mp hthawed, fun g hg hname ↦ hnew ?_, rfl⟩
    exact List.any_eq_true.mpr ⟨g, hg, beq_iff_eq.mpr hname⟩

theorem addMethod_eq_ok {m : MethodDecl} {id : MethodId} (h : t.addMethod m = .ok (t', id)) :
    t.frozen = false ∧ (∀ n ∈ t.decl.methods, (n.name, n.type) ≠ (m.name, m.type)) ∧
      id = ⟨t.decl.methods.length⟩ ∧
      t' = { t with decl := { t.decl with methods := t.decl.methods ++ [m] } } := by
  obtain ⟨_, hthawed, h⟩ := bind_eq_ok.mp h
  split at h
  · cases h
  · next hnew =>
    cases h
    refine ⟨checkThawed_eq_ok.mp hthawed, fun n hn hkey ↦ hnew ?_, rfl, rfl⟩
    obtain ⟨hname, htype⟩ := Prod.mk.inj hkey
    rw [ClassDecl.method?, List.find?_isSome]
    refine ⟨n, hn, ?_⟩
    rw [MethodDecl.goesBy, hname, htype, beq_self_eq_true, beq_self_eq_true, Bool.and_true]

private theorem accept_wellFormed {r : Except Error Editable} (ht : t.decl.WellFormed)
    (h : ∀ t', r = .ok t' → t'.decl.WellFormed) : (t.accept r).decl.WellFormed := by
  cases r with
  | ok t' => exact h t' rfl
  | error e => exact ht

private theorem modifyMethod_wellFormed {id : MethodId}
    {f : MethodDecl → Except Error MethodDecl} (ht : t.decl.WellFormed)
    (hf : ∀ m m', m.WellFormed → f m = .ok m' → m'.WellFormed)
    (h : t.modifyMethod id f = .ok t') : t'.decl.WellFormed := by
  obtain ⟨-, m, m', hm, hm', rfl⟩ := modifyMethod_eq_ok h
  refine ⟨ht.flags, ht.fields, fun n hn ↦ ?_⟩
  rcases List.mem_or_eq_of_mem_set hn with hn | rfl
  · exact ht.methods n hn
  · exact hf m n (ht.methods m (List.mem_of_getElem? hm)) hm'

private theorem modifyBody_wellFormed {id : MethodId} {f : Body → Except Error Body}
    (ht : t.decl.WellFormed) (hf : ∀ b b', b.WellFormed → f b = .ok b' → b'.WellFormed)
    (h : t.modifyBody id f = .ok t') : t'.decl.WellFormed := by
  refine modifyMethod_wellFormed ht (fun m m' hm hm' ↦ ?_) h
  split at hm'
  · next b hb =>
    obtain ⟨b', hb', rfl⟩ := map_eq_ok.mp hm'
    refine ⟨hm.flags, hm.type, ?_⟩
    rintro _ ⟨⟩
    exact hf b b' (hm.code b hb) hb'
  · cases hm'

private theorem addField_wellFormed {f : FieldDecl} (ht : t.decl.WellFormed) (hf : f.WellFormed)
    (h : t.addField f = .ok t') : t'.decl.WellFormed := by
  obtain ⟨-, -, rfl⟩ := addField_eq_ok h
  refine ⟨ht.flags, fun g hg ↦ ?_, ht.methods⟩
  rcases List.mem_append.mp hg with hg | hg
  · exact ht.fields g hg
  · rwa [List.mem_singleton.mp hg]

private theorem addMethod_wellFormed {m : MethodDecl} {id : MethodId} (ht : t.decl.WellFormed)
    (hm : m.WellFormed) (h : t.addMethod m = .ok (t', id)) : t'.decl.WellFormed := by
  obtain ⟨-, -, -, rfl⟩ := addMethod_eq_ok h
  refine ⟨ht.flags, ht.fields, fun n hn ↦ ?_⟩
  rcases List.mem_append.mp hn with hn | hn
  · exact ht.methods n hn
  · rwa [List.mem_singleton.mp hn]

private theorem finalize_wellFormed (ht : t.decl.WellFormed) :
    t.finalize.2.decl.WellFormed := by
  rw [finalize]
  split
  · exact ht
  · next decl hdecl =>
    have hdecl := ht.withReachedDepths hdecl
    split
    · exact hdecl
    · split <;> exact hdecl

/-- A change that brings in only known flags and describable types keeps a class well-formed. -/
theorem wellFormed_after {c : Change} (ht : t.decl.WellFormed) (hc : c.Expressible) :
    (t.after c).decl.WellFormed := by
  cases c with
  | addField f => exact accept_wellFormed ht fun _ h ↦ addField_wellFormed ht hc h
  | addMethod m =>
    refine accept_wellFormed ht fun t' h ↦ ?_
    obtain ⟨⟨_, id⟩, hadd, rfl⟩ := map_eq_ok.mp h
    exact addMethod_wellFormed ht hc hadd
  | changeBody id f =>
    refine accept_wellFormed ht fun _ h ↦ modifyBody_wellFormed ht (fun b b' hb hb' ↦ ?_) h
    cases hb'
    exact hc b hb
  | insertBefore id snippet =>
    exact accept_wellFormed ht fun _ h ↦
      modifyBody_wellFormed ht (fun b b' hb hb' ↦ b.wellFormed_insertBefore hb hc hb') h
  | insertAfter id snippet =>
    exact accept_wellFormed ht fun _ h ↦
      modifyBody_wellFormed ht (fun b b' hb hb' ↦ b.wellFormed_insertAfter hb hc hb') h
  | setBody id code =>
    refine accept_wellFormed ht fun _ h ↦ modifyMethod_wellFormed ht (fun m m' hm hm' ↦ ?_) h
    cases hm'
    refine ⟨hm.flags, hm.type, ?_⟩
    rintro _ ⟨⟩
    cases m.body <;> exact hc
  | setFlags id flags =>
    refine accept_wellFormed ht fun _ h ↦ modifyMethod_wellFormed ht (fun m m' hm hm' ↦ ?_) h
    cases hm'
    exact ⟨hc, hm.type, hm.code⟩
  | thaw => exact ht
  | finalize => exact finalize_wellFormed ht

/-- So do any number of such changes. -/
theorem wellFormed_afterAll {changes : List Change} (ht : t.decl.WellFormed)
    (hchanges : ∀ c ∈ changes, c.Expressible) : (t.afterAll changes).decl.WellFormed := by
  induction changes generalizing t with
  | nil => exact ht
  | cons c rest ih =>
    exact ih (wellFormed_after ht (hchanges c (.head _))) fun d hd ↦ hchanges d (.tail _ hd)

/-- A finalized class declares the depths that its bodies reach, and verifies. -/
theorem verify_of_finalize {image : List UInt8} (h : t.finalize = (.ok image, t')) :
    t.decl.withReachedDepths = .ok t'.decl ∧ t'.decl.verify = .ok () := by
  rw [finalize] at h
  split at h
  · cases h
  · next decl hdecl =>
    split at h
    · cases h
    · next hverify =>
      split at h
      · cases h
      · cases h
        exact ⟨hdecl, hverify⟩

/-- However a decoded class was edited, the class that a type is finalized with verifies, and its
image is read back as that class exactly when the class has known flags and describable types. It
has if that holds of everything that the edits brought in. -/
theorem finalized_image_decodes_iff {image image' : List UInt8} {c : ClassDecl}
    {changes : List Change} (hdecode : ClassDecl.decode image = .ok c)
    (h : ((ofDecl c).afterAll changes).finalize = (.ok image', t')) :
    t'.decl.verify = .ok () ∧
      (ClassDecl.decode image' = .ok t'.decl ↔ t'.decl.WellFormed) ∧
      ((∀ change ∈ changes, change.Expressible) → ClassDecl.decode image' = .ok t'.decl) := by
  obtain ⟨hdepths, hverify⟩ := verify_of_finalize h
  obtain ⟨-, hencode⟩ := finalize_eq_ok h
  refine ⟨hverify, ⟨ClassDecl.wellFormed_of_decode, fun hwf ↦ ?_⟩, fun hchanges ↦ ?_⟩
  · exact ClassDecl.decode_of_encode hwf hencode
  · have hc : (ofDecl c).decl.WellFormed := ClassDecl.wellFormed_of_decode hdecode
    have hedited := wellFormed_afterAll hc hchanges
    exact ClassDecl.decode_of_encode (hedited.withReachedDepths hdepths) hencode

/-- A class without members. -/
def plain : ClassDecl := ⟨Flag.visible, "k.P", none, [], []⟩

/-- The image of the class. -/
def plainImage : List UInt8 := [84, 80, 67, 76, 1, 0, 1, 0, 3, 107, 46, 80, 0, 0, 0]

/-- A snippet that pushes a field of the class and drops it again. -/
def reading : List Instruction := [.getStatic ⟨"k.P", "f", .array (.cls "k.P")⟩, .pop]

/-- Edits of several kinds, between them a finalization and its undoing. -/
def growing : List Change :=
  [.addField ⟨Flag.static, "f", .array (.cls "k.P")⟩,
    .addMethod ⟨Flag.static, "m", ⟨[], .void⟩, some ⟨0, 0, [.ret]⟩⟩,
    .finalize, .thaw, .insertBefore ⟨0⟩ reading, .insertAfter ⟨0⟩ reading,
    .changeBody ⟨0⟩ fun b ↦ { b with maxLocals := 3 }, .setFlags ⟨0⟩ (Flag.static ||| Flag.visible)]

/-- The class that the edits lead to. -/
def grown : ClassDecl :=
  ⟨Flag.visible, "k.P", none, [⟨Flag.static, "f", .array (.cls "k.P")⟩],
    [⟨Flag.static ||| Flag.visible, "m", ⟨[], .void⟩, some ⟨3, 1, reading ++ reading ++ [.ret]⟩⟩]⟩

/-- All that the edits bring in can be read back. -/
theorem expressible_growing : ∀ change ∈ growing, change.Expressible := by
  have htype : (Ty.array (.cls "k.P")).Describable :=
    (Ty.ofDescriptor_eq_ok.mp (by cbv : Ty.ofDescriptor "[Lk/P;" = .ok (.array (.cls "k.P")))).1
  have hreading : ∀ i ∈ reading, i.WellFormed := by
    intro i hi
    simp only [reading, List.mem_cons, List.not_mem_nil, or_false] at hi
    rcases hi with rfl | rfl
    · exact htype
    · trivial
  have hmethod : MethodDecl.WellFormed ⟨Flag.static, "m", ⟨[], .void⟩, some ⟨0, 0, [.ret]⟩⟩ := by
    refine ⟨by decide, ⟨by simp, .inl rfl⟩, ?_⟩
    rintro _ ⟨⟩ i hi
    rw [List.mem_singleton.mp hi]
    trivial
  intro change hchange
  simp only [growing, List.mem_cons, List.not_mem_nil, or_false] at hchange
  rcases hchange with rfl | rfl | rfl | rfl | rfl | rfl | rfl | rfl
  · exact ⟨by decide, htype⟩
  · exact hmethod
  · trivial
  · trivial
  · exact hreading
  · exact hreading
  · exact fun b hb ↦ hb
  · show Flag.within (Flag.static ||| Flag.visible) Flag.ofMember = true
    decide

/-- The image of the grown class. -/
def grownImage : List UInt8 :=
  [84, 80, 67, 76, 1, 0, 1, 0, 3, 107, 46, 80, 0, 1, 8, 0, 1, 102, 6, 91, 76, 107, 47, 80, 59, 1, 9,
    0, 1, 109, 3, 40, 41, 86, 1, 3, 1, 5, 83, 3, 107, 46, 80, 1, 102, 6, 91, 76, 107, 47, 80, 59, 1,
    83, 3, 107, 46, 80, 1, 102, 6, 91, 76, 107, 47, 80, 59, 1, 112]

/-- The grown class is read back from the image that it is finalized into. -/
theorem grown_image_decodes :
    ClassDecl.decode plainImage = .ok plain ∧
      ((ofDecl plain).afterAll growing).finalize = (.ok grownImage, ⟨grown, true⟩) ∧
      grown.verify = .ok () ∧ ClassDecl.decode grownImage = .ok grown := by
  have hdecode : ClassDecl.decode plainImage = .ok plain := by cbv
  have hfinalize :
      ((ofDecl plain).afterAll growing).finalize = (.ok grownImage, ⟨grown, true⟩) := by cbv
  obtain ⟨hverify, -, hreads⟩ := finalized_image_decodes_iff hdecode hfinalize
  exact ⟨hdecode, hfinalize, hverify, hreads expressible_growing⟩

/-- A field without a type verifies and is written, but the image is not read back. -/
theorem not_decode_finalized_of_void_field :
    ¬ ∀ (image image' : List UInt8) (c : ClassDecl) (changes : List Change) (t' : Editable),
      ClassDecl.decode image = .ok c →
      ((ofDecl c).afterAll changes).finalize = (.ok image', t') →
      ClassDecl.decode image' = .ok t'.decl ∧ t'.decl.verify = .ok () := by
  intro hclaim
  let voidField : FieldDecl := ⟨Flag.visible, "v", .void⟩
  have hdecode : ClassDecl.decode plainImage = .ok plain := by cbv
  have hfinalize : ((ofDecl plain).afterAll [.addField voidField]).finalize =
      (.ok [84, 80, 67, 76, 1, 0, 1, 0, 3, 107, 46, 80, 0, 1, 1, 0, 1, 118, 1, 86, 0],
        ⟨{ plain with fields := [voidField] }, true⟩) := by cbv
  have hread := (hclaim _ _ _ _ _ hdecode hfinalize).1
  have hwf := ClassDecl.wellFormed_of_decode hread
  exact (hwf.fields voidField (.head _)).type.bottom rfl

end Editable

end Hotswap
