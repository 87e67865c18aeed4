import Mathlib
import Hotswap.Class.Codec
import Hotswap.Proofs.Descriptors
import Hotswap.Proofs.Reading

/-!
# Images of classes

An image is read back as the class that it was written for exactly when the class is well-formed:
its flags are known ones and its types are such that a descriptor can describe them. What an image
gives is always well-formed, and only the image itself can make reading fail.
-/

namespace Hotswap

/-- The types that an instruction mentions are describable. -/
def Instruction.WellFormed : Instruction → Prop
  | getField f | putField f | getStatic f | putStatic f => f.type.Describable
  | invokeVirtual m | invokeStatic m => m.type.Describable
  | callNative n => n.type.Describable
  | _ => True

/-- A field with known flags and a describable type. -/
structure FieldDecl.WellFormed (f : FieldDecl) : Prop where
  flags : Flag.within f.flags Flag.ofMember = true
  type : f.type.Describable

/-- A method with known flags and a describable type, also in the instructions of its body. -/
structure MethodDecl.WellFormed (m : MethodDecl) : Prop where
  flags : Flag.within m.flags Flag.ofMember = true
  type : m.type.Describable
  code : ∀ b, m.body = some b → ∀ i ∈ b.code, i.WellFormed

/-- A class whose flags are known and whose types are describable. -/
structure ClassDecl.WellFormed (c : ClassDecl) : Prop where
  flags : Flag.within c.flags Flag.ofClass = true
  fields : ∀ f ∈ c.fields, f.WellFormed
  methods : ∀ m ∈ c.methods, m.WellFormed

private theorem countedStrings_cons_eq_ok {s : String} {ss : List String} {bs : List UInt8} :
    countedStrings (s :: ss) = .ok bs ↔
      ∃ first others, countedString s = .ok first ∧ countedStrings ss = .ok others ∧
        bs = first ++ others := by
  rw [countedStrings, bind_eq_ok]
  constructor
  · rintro ⟨first, hfirst, h⟩
    obtain ⟨others, hothers, h⟩ := bind_eq_ok.mp h
    exact ⟨first, others, hfirst, hothers, (Except.ok.inj h).symm⟩
  · rintro ⟨first, others, hfirst, hothers, rfl⟩
    exact ⟨first, hfirst, bind_eq_ok.mpr ⟨others, hothers, rfl⟩⟩

private theorem countedStrings_two {a b : String} {bs : List UInt8}
    (h : countedStrings [a, b] = .ok bs) :
    ∃ x y, countedString a = .ok x ∧ countedString b = .ok y ∧ bs = x ++ y := by
  obtain ⟨x, _, hx, hrest, rfl⟩ := countedStrings_cons_eq_ok.mp h
  obtain ⟨y, _, hy, hnil, rfl⟩ := countedStrings_cons_eq_ok.mp hrest
  cases hnil
  exact ⟨x, y, hx, hy, by rw [List.append_nil]⟩

private theorem countedStrings_three {a b c : String} {bs : List UInt8}
    (h : countedStrings [a, b, c] = .ok bs) :
    ∃ x y z, countedString a = .ok x ∧ countedString b = .ok y ∧ countedString c = .ok z ∧
      bs = x ++ (y ++ z) := by
  obtain ⟨x, _, hx, hrest, rfl⟩ := countedStrings_cons_eq_ok.mp h
  obtain ⟨y, z, hy, hz, rfl⟩ := countedStrings_two hrest
  exact ⟨x, y, z, hx, hy, hz, rfl⟩

namespace Reader

/-! ### Reading what was written -/

theorem reads_ofExcept {α : Type} {r : Except Error α} {a : α} (h : r = .ok a) :
    (ofExcept r).Reads [] a := by
  subst h
  intro rest pos
  rfl

/-- A describable type is read from its counted descriptor. -/
theorem reads_type {t : Ty} {bs : List UInt8} (ht : t.Describable)
    (h : Hotswap.countedString t.descriptor = .ok bs) : type.Reads bs t :=
  (reads_countedString h).bind_nil (reads_ofExcept (Ty.ofDescriptor_eq_ok.mpr ⟨ht, rfl⟩))

/-- A describable method type is read from its counted descriptor. -/
theorem reads_methodType {m : MethodTy} {bs : List UInt8} (hm : m.Describable)
    (h : Hotswap.countedString m.descriptor = .ok bs) : methodType.Reads bs m :=
  (reads_countedString h).bind_nil (reads_ofExcept (MethodTy.ofDescriptor_eq_ok.mpr ⟨hm, rfl⟩))

theorem reads_fieldRef {f : FieldRef} {bs : List UInt8} (ht : f.type.Describable)
    (h : f.encode = .ok bs) : fieldRef.Reads bs f := by
  obtain ⟨x, y, z, hx, hy, hz, rfl⟩ := countedStrings_three h
  exact (reads_countedString hx).bind ((reads_countedString hy).bind
    ((reads_type ht hz).bind_nil (reads_pure _)))

theorem reads_methodRef {m : MethodRef} {bs : List UInt8} (ht : m.type.Describable)
    (h : m.encode = .ok bs) : methodRef.Reads bs m := by
  obtain ⟨x, y, z, hx, hy, hz, rfl⟩ := countedStrings_three h
  exact (reads_countedString hx).bind ((reads_countedString hy).bind
    ((reads_methodType ht hz).bind_nil (reads_pure _)))

theorem reads_nativeRef {n : NativeRef} {bs : List UInt8} (ht : n.type.Describable)
    (h : n.encode = .ok bs) : nativeRef.Reads bs n := by
  obtain ⟨x, y, hx, hy, rfl⟩ := countedStrings_two h
  exact (reads_countedString hx).bind ((reads_methodType ht hy).bind_nil (reads_pure _))

/-- The operands of an instruction are read after its opcode. -/
theorem reads_operands {i : Instruction} {bs : List UInt8} (hi : i.WellFormed)
    (h : i.encodeOperands = .ok bs) : (operands i.opcode).Reads bs i := by
  cases i with
  | const c =>
    cases c with
    | null =>
      cases h
      exact reads_pure _
    | int v =>
      cases h
      have hr := (reads_word32 v.toUInt32).map fun w ↦ Instruction.const (.int w.toInt32)
      rwa [Int32.toInt32_toUInt32] at hr
    | long v =>
      cases h
      have hr := (reads_word64 v.toUInt64).map fun w ↦ Instruction.const (.long w.toInt64)
      rwa [Int64.toInt64_toUInt64] at hr
    | double v =>
      cases h
      exact (reads_word64 v.bits).map fun w ↦ Instruction.const (.double ⟨w⟩)
    | str v => exact (reads_countedString h).map _
  | load index =>
    cases h
    exact (reads_word16 index).map _
  | store index =>
    cases h
    exact (reads_word16 index).map _
  | arithmetic op =>
    cases h
    cases op <;> exact reads_pure _
  | jump t =>
    cases h
    exact (reads_word32 t).map _
  | jumpIf c t =>
    cases h
    cases c <;> exact (reads_word32 t).map _
  | new c => exact (reads_countedString h).map _
  | getField f | putField f | getStatic f | putStatic f => exact (reads_fieldRef hi h).map _
  | invokeVirtual m | invokeStatic m => exact (reads_methodRef hi h).map _
  | callNative n => exact (reads_nativeRef hi h).map _
  | nop | pop | dup | cmpEq | cmpLt | ret | retValue =>
    cases h
    exact reads_pure _

/-- A well-formed instruction is read from its encoding, which is not empty. -/
theorem reads_instruction {i : Instruction} {bs : List UInt8} (hi : i.WellFormed)
    (h : i.encode = .ok bs) : instruction.Reads bs i ∧ 0 < bs.length := by
  obtain ⟨ops, hops, rfl⟩ := map_eq_ok.mp h
  refine ⟨?_, by simp⟩
  refine (reads_byte i.opcode.byte).bind (?_ : Reads _ ops _)
  rw [Opcode.ofByte?_byte]
  exact reads_operands hi hops

/-- A reader of the items of a list, for encodings that are not empty. -/
private theorem reads_times {α : Type} {encode : α → Except Error (List UInt8)} {read : Reader α}
    {items : List α} {bs : List UInt8}
    (hread : ∀ a ∈ items, ∀ bs, encode a = .ok bs → read.Reads bs a ∧ 0 < bs.length)
    (h : encodeAll encode items = .ok bs) :
    (times read items.length).Reads bs items ∧ items.length ≤ bs.length := by
  obtain ⟨parts, hparts, rfl⟩ := map_eq_ok.mp h
  induction items generalizing parts with
  | nil =>
    cases hparts
    exact ⟨fun rest pos ↦ rfl, Nat.le_refl _⟩
  | cons a items ih =>
    obtain ⟨part, parts, hpart, hrest, rfl⟩ := mapM_cons_eq_ok.mp hparts
    obtain ⟨hhead, hpos⟩ := hread a (.head _) part hpart
    obtain ⟨htail, hle⟩ := ih (fun b hb ↦ hread b (.tail _ hb)) parts hrest
      (map_eq_ok.mpr ⟨parts, hrest, rfl⟩)
    constructor
    · intro rest pos
      rw [List.length_cons, run_times_succ]
      exact hhead.bind (htail.map (a :: ·)) rest pos
    · simp only [List.flatten_cons, List.length_append, List.length_cons]
      omega

/-- A counted list is read from its encoding when its items are from theirs. -/
theorem reads_counted {α : Type} {encode : α → Except Error (List UInt8)} {read : Reader α}
    {items : List α} {bs : List UInt8}
    (hread : ∀ a ∈ items, ∀ bs, encode a = .ok bs → read.Reads bs a ∧ 0 < bs.length)
    (h : encodeCounted encode items = .ok bs) : (counted read).Reads bs items := by
  obtain ⟨front, hfront, h⟩ := bind_eq_ok.mp h
  obtain ⟨entries, hentries, h⟩ := bind_eq_ok.mp h
  cases h
  obtain ⟨htimes, hle⟩ := reads_times hread hentries
  intro rest pos
  -- The count is only plausible because of the bytes behind it, so it is not read by itself.
  have hcount : count.run ⟨front ++ entries ++ rest, pos⟩ =
      (.ok items.length, ⟨entries ++ rest, pos + front.length⟩) := by
    have hnot : ¬entries.length + rest.length < items.length := by omega
    rw [count, run_bind, List.append_assoc, reads_compressedCount hfront]
    simp only [run_bind, run_remaining, List.length_append, if_neg hnot, run_pure]
  rw [counted, run_bind, hcount]
  simp only [htimes rest, List.length_append, Nat.add_assoc]

/-- An optional item is read from its encoding when the item is. -/
theorem reads_optional {α : Type} {encode : α → Except Error (List UInt8)} {read : Reader α}
    {item : Option α} {bs : List UInt8}
    (hread : ∀ a, item = some a → ∀ bs, encode a = .ok bs → read.Reads bs a)
    (h : encodeOptional encode item = .ok bs) : (optional read).Reads bs item := by
  cases item with
  | none =>
    cases h
    exact (reads_boolean false).bind_nil (reads_pure _)
  | some a =>
    obtain ⟨entry, hentry, rfl⟩ := map_eq_ok.mp h
    exact (reads_boolean true).bind ((hread a rfl entry hentry).map some)

theorem reads_memberFlags {flags : UInt16} (h : Flag.within flags Flag.ofMember = true) :
    memberFlags.Reads (word16Bytes flags) flags := by
  apply (reads_word16 flags).bind_nil
  rw [if_pos h]
  exact reads_pure _

theorem reads_classFlags {flags : UInt16} (h : Flag.within flags Flag.ofClass = true) :
    classFlags.Reads (word16Bytes flags) flags := by
  apply (reads_word16 flags).bind_nil
  rw [if_pos h]
  exact reads_pure _

theorem reads_limited {cause : Nat → Malformed} {v : UInt16} {bs : List UInt8}
    (h : compressedCount v.toNat = .ok bs) : (limited cause).Reads bs v := by
  apply (reads_compressedCount h).bind_nil
  rw [if_pos v.toNat_lt, UInt16.ofNat_toNat]
  exact reads_pure _

/-- A well-formed field is read from its encoding, which is not empty. -/
theorem reads_field {f : FieldDecl} {bs : List UInt8} (hf : f.WellFormed)
    (h : f.encode = .ok bs) : field.Reads bs f ∧ 0 < bs.length := by
  obtain ⟨strings, hstrings, h⟩ := bind_eq_ok.mp h
  cases h
  obtain ⟨x, y, hx, hy, rfl⟩ := countedStrings_two hstrings
  constructor
  · exact (reads_memberFlags hf.flags).bind ((reads_countedString hx).bind
      ((reads_type hf.type hy).bind_nil (reads_pure _)))
  · simp only [word16Bytes, List.length_append, length_littleEndian]
    omega

/-- A body with well-formed instructions is read from its encoding. -/
theorem reads_body {b : Body} {bs : List UInt8} (hb : ∀ i ∈ b.code, i.WellFormed)
    (h : b.encode = .ok bs) : body.Reads bs b := by
  obtain ⟨locals, hlocals, h⟩ := bind_eq_ok.mp h
  obtain ⟨stack, hstack, h⟩ := bind_eq_ok.mp h
  obtain ⟨code, hcode, h⟩ := bind_eq_ok.mp h
  cases h
  have hread := reads_counted (fun i hi bs hbs ↦ reads_instruction (hb i hi) hbs) hcode
  rw [List.append_assoc]
  exact (reads_limited hlocals).bind ((reads_limited hstack).bind (hread.bind_nil (reads_pure _)))

/-- A well-formed method is read from its encoding, which is not empty. -/
theorem reads_method {m : MethodDecl} {bs : List UInt8} (hm : m.WellFormed)
    (h : m.encode = .ok bs) : method.Reads bs m ∧ 0 < bs.length := by
  obtain ⟨strings, hstrings, h⟩ := bind_eq_ok.mp h
  obtain ⟨entry, hentry, h⟩ := bind_eq_ok.mp h
  cases h
  obtain ⟨x, y, hx, hy, rfl⟩ := countedStrings_two hstrings
  have hbody := reads_optional (fun b hb bs hbs ↦ reads_body (hm.code b hb) hbs) hentry
  constructor
  · rw [List.append_assoc, List.append_assoc]
    exact (reads_memberFlags hm.flags).bind ((reads_countedString hx).bind
      ((reads_methodType hm.type hy).bind (hbody.bind_nil (reads_pure _))))
  · simp only [word16Bytes, List.length_append, length_littleEndian]
    omega

theorem reads_header : header.Reads (word32Bytes imageMagic ++ word16Bytes imageVersion) () := by
  apply (reads_word32 imageMagic).bind
  rw [if_neg (by simp)]
  apply (reads_word16 imageVersion).bind_nil
  rw [if_neg (by simp)]
  exact reads_pure _

/-- A well-formed class is read from its image. -/
theorem reads_classDecl {c : ClassDecl} {bs : List UInt8} (hc : c.WellFormed)
    (h : c.encode = .ok bs) : classDecl.Reads bs c := by
  obtain ⟨name, hname, h⟩ := bind_eq_ok.mp h
  obtain ⟨superName, hsuper, h⟩ := bind_eq_ok.mp h
  obtain ⟨fields, hfields, h⟩ := bind_eq_ok.mp h
  obtain ⟨methods, hmethods, h⟩ := bind_eq_ok.mp h
  cases h
  have hfields := reads_counted (fun f hf bs hbs ↦ reads_field (hc.fields f hf) hbs) hfields
  have hmethods := reads_counted (fun m hm bs hbs ↦ reads_method (hc.methods m hm) hbs) hmethods
  have hsuper := reads_optional (fun s _ bs hbs ↦ reads_countedString hbs) hsuper
  simp only [List.append_assoc]
  rw [← List.append_assoc (word32Bytes imageMagic)]
  exact reads_header.bind ((reads_classFlags hc.flags).bind ((reads_countedString hname).bind
    (hsuper.bind (hfields.bind (hmethods.bind_nil (reads_pure _))))))

/-! ### What can be read -/

theorem yields_type : type.Yields Ty.Describable :=
  (yields_true _).bind fun _ _ _ _ _ h ↦ (Ty.ofDescriptor_eq_ok.mp (Prod.mk.inj h).1).1

theorem yields_methodType : methodType.Yields MethodTy.Describable :=
  (yields_true _).bind fun _ _ _ _ _ h ↦ (MethodTy.ofDescriptor_eq_ok.mp (Prod.mk.inj h).1).1

theorem yields_fieldRef : fieldRef.Yields fun f ↦ f.type.Describable :=
  (yields_true _).bind fun _ _ ↦ (yields_true _).bind fun _ _ ↦
    yields_type.bind fun _ ht ↦ yields_pure ht

theorem yields_methodRef : methodRef.Yields fun m ↦ m.type.Describable :=
  (yields_true _).bind fun _ _ ↦ (yields_true _).bind fun _ _ ↦
    yields_methodType.bind fun _ ht ↦ yields_pure ht

theorem yields_nativeRef : nativeRef.Yields fun n ↦ n.type.Describable :=
  (yields_true _).bind fun _ _ ↦ yields_methodType.bind fun _ ht ↦ yields_pure ht

private theorem Yields.of_true {α : Type} {r : Reader α} {P : α → Prop} (h : ∀ a, P a) :
    r.Yields P := fun _ a _ _ ↦ h a

theorem yields_operands (op : Opcode) : (operands op).Yields Instruction.WellFormed := by
  cases op with
  | getField => exact .map (f := Instruction.getField) yields_fieldRef
  | putField => exact .map (f := Instruction.putField) yields_fieldRef
  | getStatic => exact .map (f := Instruction.getStatic) yields_fieldRef
  | putStatic => exact .map (f := Instruction.putStatic) yields_fieldRef
  | invokeVirtual => exact .map (f := Instruction.invokeVirtual) yields_methodRef
  | invokeStatic => exact .map (f := Instruction.invokeStatic) yields_methodRef
  | callNative => exact .map (f := Instruction.callNative) yields_nativeRef
  | nop | pop | dup | constNull | add | sub | mul | cmpEq | cmpLt | ret | retValue =>
    exact yields_pure trivial
  | constInt | constLong | constDouble | constStr | load | store | jump | jumpIfZero
  | jumpIfNonZero | new => exact Yields.map (.of_true fun _ ↦ trivial)

theorem yields_instruction : instruction.Yields Instruction.WellFormed := by
  refine (yields_true _).bind fun b _ ↦ ?_
  split
  · exact yields_operands _
  · exact (yields_true _).bind fun _ _ ↦ yields_fail _

theorem Yields.counted {α : Type} {read : Reader α} {P : α → Prop} (h : read.Yields P) :
    (counted read).Yields fun as ↦ ∀ a ∈ as, P a :=
  (yields_true _).bind fun n _ ↦ h.times n

theorem Yields.optional {α : Type} {read : Reader α} {P : α → Prop} (h : read.Yields P) :
    (optional read).Yields fun o ↦ ∀ a, o = some a → P a := by
  refine (yields_true _).bind fun b _ ↦ ?_
  cases b with
  | true =>
    refine Yields.map fun c a c' ha ↦ ?_
    rintro _ ⟨⟩
    exact h c a c' ha
  | false => exact yields_pure fun a ha ↦ by cases ha

theorem yields_memberFlags :
    memberFlags.Yields fun flags ↦ Flag.within flags Flag.ofMember = true := by
  refine (yields_true _).bind fun flags _ ↦ ?_
  split
  · exact yields_pure ‹_›
  · exact yields_fail _

theorem yields_classFlags :
    classFlags.Yields fun flags ↦ Flag.within flags Flag.ofClass = true := by
  refine (yields_true _).bind fun flags _ ↦ ?_
  split
  · exact yields_pure ‹_›
  · exact yields_fail _

theorem yields_field : field.Yields FieldDecl.WellFormed :=
  yields_memberFlags.bind fun _ hflags ↦ (yields_true _).bind fun _ _ ↦
    yields_type.bind fun _ ht ↦ yields_pure ⟨hflags, ht⟩

theorem yields_body : body.Yields fun b ↦ ∀ i ∈ b.code, i.WellFormed :=
  (yields_true _).bind fun _ _ ↦ (yields_true _).bind fun _ _ ↦
    yields_instruction.counted.bind fun _ hcode ↦ yields_pure hcode

theorem yields_method : method.Yields MethodDecl.WellFormed :=
  yields_memberFlags.bind fun _ hflags ↦ (yields_true _).bind fun _ _ ↦
    yields_methodType.bind fun _ ht ↦ yields_body.optional.bind fun _ hbody ↦
      yields_pure ⟨hflags, ht, hbody⟩

/-- A class that is read is well-formed. -/
theorem yields_classDecl : classDecl.Yields ClassDecl.WellFormed :=
  (yields_true _).bind fun _ _ ↦ yields_classFlags.bind fun _ hflags ↦
    (yields_true _).bind fun _ _ ↦ (yields_true _).bind fun _ _ ↦
      yields_field.counted.bind fun _ hfields ↦ yields_method.counted.bind fun _ hmethods ↦
        yields_pure ⟨hflags, hfields, hmethods⟩

theorem yields_image : image.Yields ClassDecl.WellFormed := by
  refine yields_classDecl.bind fun c hc ↦ (yields_true _).bind fun left _ ↦ ?_
  split
  · exact yields_pure hc
  · exact yields_fail _

/-! ### Why reading fails -/

theorem failsOnInput_type : type.FailsOnInput :=
  failsOnInput_countedString.bind fun _ _ _ _ h ↦
    .inr (Ty.fails_ofDescriptor (Prod.mk.inj h).1)

theorem failsOnInput_methodType : methodType.FailsOnInput :=
  failsOnInput_countedString.bind fun _ _ _ _ h ↦
    .inr (MethodTy.fails_ofDescriptor (Prod.mk.inj h).1)

theorem failsOnInput_fieldRef : fieldRef.FailsOnInput :=
  failsOnInput_countedString.bind fun _ ↦ failsOnInput_countedString.bind fun _ ↦
    failsOnInput_type.bind fun _ ↦ failsOnInput_pure _

theorem failsOnInput_methodRef : methodRef.FailsOnInput :=
  failsOnInput_countedString.bind fun _ ↦ failsOnInput_countedString.bind fun _ ↦
    failsOnInput_methodType.bind fun _ ↦ failsOnInput_pure _

theorem failsOnInput_nativeRef : nativeRef.FailsOnInput :=
  failsOnInput_countedString.bind fun _ ↦ failsOnInput_methodType.bind fun _ ↦ failsOnInput_pure _

theorem failsOnInput_operands (op : Opcode) : (operands op).FailsOnInput := by
  cases op with
  | constInt | jump | jumpIfZero | jumpIfNonZero => exact failsOnInput_word32.map _
  | constLong | constDouble => exact failsOnInput_word64.map _
  | constStr | new => exact failsOnInput_countedString.map _
  | load | store => exact failsOnInput_word16.map _
  | getField | putField | getStatic | putStatic => exact failsOnInput_fieldRef.map _
  | invokeVirtual | invokeStatic => exact failsOnInput_methodRef.map _
  | callNative => exact failsOnInput_nativeRef.map _
  | _ => exact failsOnInput_pure _

theorem failsOnInput_instruction : instruction.FailsOnInput := by
  refine failsOnInput_byte.bind fun b ↦ ?_
  split
  · exact failsOnInput_operands _
  · exact failsOnInput_position.bind fun _ ↦ failsOnInput_fail _

theorem FailsOnInput.counted {α : Type} {read : Reader α} (h : read.FailsOnInput) :
    (counted read).FailsOnInput :=
  failsOnInput_count.bind h.times

theorem FailsOnInput.optional {α : Type} {read : Reader α} (h : read.FailsOnInput) :
    (optional read).FailsOnInput := by
  refine failsOnInput_boolean.bind fun b ↦ ?_
  split
  · exact h.map _
  · exact failsOnInput_pure _

theorem failsOnInput_memberFlags : memberFlags.FailsOnInput := by
  refine failsOnInput_word16.bind fun flags ↦ ?_
  split
  · exact failsOnInput_pure _
  · exact failsOnInput_fail _

theorem failsOnInput_classFlags : classFlags.FailsOnInput := by
  refine failsOnInput_word16.bind fun flags ↦ ?_
  split
  · exact failsOnInput_pure _
  · exact failsOnInput_fail _

theorem failsOnInput_limited (cause : Nat → Malformed) : (limited cause).FailsOnInput := by
  refine failsOnInput_compressed.bind fun v ↦ ?_
  split
  · exact failsOnInput_pure _
  · exact failsOnInput_fail _

theorem failsOnInput_field : field.FailsOnInput :=
  failsOnInput_memberFlags.bind fun _ ↦ failsOnInput_countedString.bind fun _ ↦
    failsOnInput_type.bind fun _ ↦ failsOnInput_pure _

theorem failsOnInput_body : body.FailsOnInput :=
  (failsOnInput_limited _).bind fun _ ↦ (failsOnInput_limited _).bind fun _ ↦
    failsOnInput_instruction.counted.bind fun _ ↦ failsOnInput_pure _

theorem failsOnInput_method : method.FailsOnInput :=
  failsOnInput_memberFlags.bind fun _ ↦ failsOnInput_countedString.bind fun _ ↦
    failsOnInput_methodType.bind fun _ ↦ failsOnInput_body.optional.bind fun _ ↦
      failsOnInput_pure _

theorem failsOnInput_header : header.FailsOnInput := by
  refine failsOnInput_word32.bind fun magic ↦ ?_
  split
  · exact failsOnInput_fail _
  · refine failsOnInput_word16.bind fun version ↦ ?_
    split
    · exact failsOnInput_fail _
    · exact failsOnInput_pure _

theorem failsOnInput_classDecl : classDecl.FailsOnInput :=
  failsOnInput_header.bind fun _ ↦ failsOnInput_classFlags.bind fun _ ↦
    failsOnInput_countedString.bind fun _ ↦ failsOnInput_countedString.optional.bind fun _ ↦
      failsOnInput_field.counted.bind fun _ ↦ failsOnInput_method.counted.bind fun _ ↦
        failsOnInput_pure _

theorem failsOnInput_image : image.FailsOnInput := by
  refine failsOnInput_classDecl.bind fun c ↦ failsOnInput_remaining.bind fun left ↦ ?_
  split
  · exact failsOnInput_pure _
  · exact failsOnInput_fail _

end Reader

namespace ClassDecl

/-- Where an image holds no class, it is empty or its bytes are at fault. -/
theorem fails_decode {image : List UInt8} {e : Error} (h : decode image = .error e) :
    e = .empty ∨ e = .outOfBounds ∨ (∃ cause, e = .malformed cause) ∨
      ∃ limit, e = .recursionLimit limit := by
  unfold decode at h
  split at h
  · cases h
    exact .inl rfl
  · exact .inr (Reader.failsOnInput_image _ e _ (Prod.ext h rfl))

/-- A class that an image holds is well-formed. -/
theorem wellFormed_of_decode {c : ClassDecl} {image : List UInt8} (h : decode image = .ok c) :
    c.WellFormed := by
  unfold decode at h
  split at h
  · cases h
  · exact Reader.yields_image _ c _ (Prod.ext h rfl)

/-- A well-formed class is read back from its image. -/
theorem decode_of_encode {c : ClassDecl} {image : List UInt8} (hc : c.WellFormed)
    (h : c.encode = .ok image) : decode image = .ok c := by
  have hread := Reader.reads_classDecl hc h [] 0
  rw [List.append_nil] at hread
  have hne : image.isEmpty = false := by
    obtain ⟨name, hname, h⟩ := bind_eq_ok.mp h
    obtain ⟨superName, hsuper, h⟩ := bind_eq_ok.mp h
    obtain ⟨fields, hfields, h⟩ := bind_eq_ok.mp h
    obtain ⟨methods, hmethods, h⟩ := bind_eq_ok.mp h
    cases h
    rfl
  simp only [decode, hne, Bool.false_eq_true, if_false, Reader.image, Cursor.start,
    Reader.run_bind, hread, Reader.run_remaining]
  rfl

/-- A class is read back from its image exactly when it is well-formed. -/
theorem decode_image_iff_wellFormed {c : ClassDecl} {image : List UInt8}
    (h : c.encode = .ok image) : decode image = .ok c ↔ c.WellFormed := by
  constructor
  · intro hd
    exact wellFormed_of_decode hd
  · intro hc
    exact decode_of_encode hc h

/-- A class with a superclass, a static field and a method that handles both. -/
def sample : ClassDecl :=
  ⟨Flag.visible, "a.B", some "a.C", [⟨Flag.static, "f", .array (.cls "a.B")⟩],
    [⟨Flag.static, "m", ⟨[.prim .double], .void⟩, some ⟨2, 1,
      [.const (.double ⟨0x7FF8000000000001⟩), .store 1,
        .getStatic ⟨"a.B", "f", .array (.cls "a.B")⟩, .pop, .ret]⟩⟩]⟩

/-- The image of the sample class. -/
def sampleImage : List UInt8 :=
  [84, 80, 67, 76, 1, 0, 1, 0, 3, 97, 46, 66, 1, 3, 97, 46, 67, 1, 8, 0, 1, 102, 6, 91, 76, 97, 47,
    66, 59, 1, 8, 0, 1, 109, 4, 40, 68, 41, 86, 1, 2, 1, 5, 19, 1, 0, 0, 0, 0, 0, 248, 127, 33, 1,
    0, 83, 3, 97, 46, 66, 1, 102, 6, 91, 76, 97, 47, 66, 59, 1, 112]

/-- The sample class is written, read back and thereby well-formed. -/
theorem sample_wellFormed : sample.encode = .ok sampleImage ∧
    decode sampleImage = .ok sample ∧ sample.WellFormed := by
  have hencode : sample.encode = .ok sampleImage := by cbv
  have hdecode : decode sampleImage = .ok sample := by cbv
  exact ⟨hencode, hdecode, (decode_image_iff_wellFormed hencode).mp hdecode⟩

end ClassDecl

end Hotswap
