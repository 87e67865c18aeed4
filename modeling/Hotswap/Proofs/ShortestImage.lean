import Hotswap.Proofs.Consumption
import Hotswap.Proofs.Strictness

/-!
# The shortest image of a class

A class that an image holds can be written again. The image that is written is shorter than the one
that was read unless it is the same, so writing what was read gives one image for each class, and
doing so twice changes nothing more.
-/

namespace Hotswap

/-! ### Encodings of parts -/

theorem countedStrings_cons {s : String} {ss : List String} {first others : List UInt8}
    (h : countedString s = .ok first) (h' : countedStrings ss = .ok others) :
    countedStrings (s :: ss) = .ok (first ++ others) := by
  rw [countedStrings, h, h']
  rfl

theorem encodeAll_cons {α : Type} {encode : α → Except Error (List UInt8)} {a : α} {items : List α}
    {part parts : List UInt8} (h : encode a = .ok part) (h' : encodeAll encode items = .ok parts) :
    encodeAll encode (a :: items) = .ok (part ++ parts) := by
  obtain ⟨entries, hentries, rfl⟩ := map_eq_ok.mp h'
  exact map_eq_ok.mpr ⟨part :: entries, mapM_cons_eq_ok.mpr ⟨_, _, h, hentries, rfl⟩, rfl⟩

namespace Reader

/-! ### Types and references -/

theorem restores_type : type.Restores fun t form ↦ Hotswap.countedString t.descriptor = .ok form := by
  refine restores_countedString.bind fun d form hform ↦ ?_
  refine (consumes_ofExcept fun t ht ↦ ?_).restores
  rw [(Ty.ofDescriptor_eq_ok.mp ht).2, List.append_nil]
  exact hform

theorem restores_methodType :
    methodType.Restores fun m form ↦ Hotswap.countedString m.descriptor = .ok form := by
  refine restores_countedString.bind fun d form hform ↦ ?_
  refine (consumes_ofExcept fun m hm ↦ ?_).restores
  rw [(MethodTy.ofDescriptor_eq_ok.mp hm).2, List.append_nil]
  exact hform

theorem restores_fieldRef : fieldRef.Restores fun f form ↦ f.encode = .ok form :=
  restores_countedString.bind fun _ _ howner ↦ restores_countedString.bind fun _ _ hname ↦
    restores_type.bind fun _ _ htype ↦ restores_pure
      (countedStrings_cons howner (countedStrings_cons hname (countedStrings_cons htype rfl)))

theorem restores_methodRef : methodRef.Restores fun m form ↦ m.encode = .ok form :=
  restores_countedString.bind fun _ _ howner ↦ restores_countedString.bind fun _ _ hname ↦
    restores_methodType.bind fun _ _ htype ↦ restores_pure
      (countedStrings_cons howner (countedStrings_cons hname (countedStrings_cons htype rfl)))

theorem restores_nativeRef : nativeRef.Restores fun n form ↦ n.encode = .ok form :=
  restores_countedString.bind fun _ _ hname ↦ restores_methodType.bind fun _ _ htype ↦
    restores_pure (countedStrings_cons hname (countedStrings_cons htype rfl))

/-! ### Instructions -/

/-- The operands that are read after an opcode belong to an instruction of that opcode. -/
theorem restores_operands (op : Opcode) :
    (operands op).Restores fun i form ↦ i.opcode = op ∧ i.encodeOperands = .ok form := by
  cases op with
  | constInt =>
    refine Restores.map (consumes_word32.restores.imp fun w form hform ↦ ⟨rfl, ?_⟩)
    rw [hform]
    rfl
  | constLong =>
    refine Restores.map (consumes_word64.restores.imp fun w form hform ↦ ⟨rfl, ?_⟩)
    rw [hform]
    rfl
  | constDouble =>
    refine Restores.map (consumes_word64.restores.imp fun w form hform ↦ ⟨rfl, ?_⟩)
    rw [hform]
    rfl
  | load | store =>
    refine Restores.map (consumes_word16.restores.imp fun w form hform ↦ ⟨rfl, ?_⟩)
    rw [hform]
    rfl
  | jump | jumpIfZero | jumpIfNonZero =>
    refine Restores.map (consumes_word32.restores.imp fun w form hform ↦ ⟨rfl, ?_⟩)
    rw [hform]
    rfl
  | constStr | new =>
    exact Restores.map (restores_countedString.imp fun _ _ hform ↦ ⟨rfl, hform⟩)
  | getField | putField | getStatic | putStatic =>
    exact Restores.map (restores_fieldRef.imp fun _ _ hform ↦ ⟨rfl, hform⟩)
  | invokeVirtual | invokeStatic =>
    exact Restores.map (restores_methodRef.imp fun _ _ hform ↦ ⟨rfl, hform⟩)
  | callNative => exact Restores.map (restores_nativeRef.imp fun _ _ hform ↦ ⟨rfl, hform⟩)
  | nop | pop | dup | constNull | add | sub | mul | cmpEq | cmpLt | ret | retValue =>
    exact restores_pure ⟨rfl, rfl⟩

theorem restores_instruction : instruction.Restores fun i form ↦ i.encode = .ok form := by
  refine consumes_byte.restores.bind fun b form hform ↦ ?_
  subst hform
  split
  · next op hop =>
    refine (restores_operands op).imp fun i form ⟨hi, hform⟩ ↦ ?_
    refine map_eq_ok.mpr ⟨form, hform, ?_⟩
    rw [hi, Opcode.byte_of_ofByte? hop]
    rfl
  · exact restores_position.bind fun _ _ _ ↦ restores_fail _

/-! ### Lists and optional items -/

/-- What is read several times is written as so many items. -/
theorem Restores.times {α : Type} {read : Reader α} {encode : α → Except Error (List UInt8)}
    (h : read.Restores fun a form ↦ encode a = .ok form) (n : Nat) :
    (times read n).Restores fun items form ↦
      items.length = n ∧ encodeAll encode items = .ok form := by
  induction n with
  | zero =>
    intro c items c' hrun
    cases hrun
    exact ⟨[], rfl, [], ⟨rfl, rfl⟩, .inl rfl⟩
  | succ n ih =>
    rw [times_succ]
    refine Restores.bind h fun a part hpart ↦ ?_
    refine Restores.map (ih.imp fun items parts ⟨hlength, hparts⟩ ↦ ⟨?_, ?_⟩)
    · rw [List.length_cons, hlength]
    · exact encodeAll_cons hpart hparts

theorem Restores.counted {α : Type} {read : Reader α} {encode : α → Except Error (List UInt8)}
    (h : read.Restores fun a form ↦ encode a = .ok form) :
    (counted read).Restores fun items form ↦ encodeCounted encode items = .ok form := by
  refine restores_count.bind fun n front hfront ↦ ?_
  refine (h.times n).imp fun items entries ⟨hlength, hentries⟩ ↦ ?_
  rw [encodeCounted, hlength, hfront, hentries]
  rfl

theorem Restores.optional {α : Type} {read : Reader α} {encode : α → Except Error (List UInt8)}
    (h : read.Restores fun a form ↦ encode a = .ok form) :
    (optional read).Restores fun item form ↦ encodeOptional encode item = .ok form := by
  refine consumes_boolean.restores.bind fun b form hform ↦ ?_
  subst hform
  cases b with
  | false => exact restores_pure rfl
  | true =>
    refine Restores.map (h.imp fun a form hform ↦ ?_)
    exact map_eq_ok.mpr ⟨form, hform, rfl⟩

/-! ### Members and classes -/

theorem restores_memberFlags : memberFlags.Restores fun flags form ↦ form = word16Bytes flags :=
  consumes_word16.restores.checked fun _ _ _ hform ↦ hform

theorem restores_classFlags : classFlags.Restores fun flags form ↦ form = word16Bytes flags :=
  consumes_word16.restores.checked fun _ _ _ hform ↦ hform

theorem restores_limited (cause : Nat → Malformed) :
    (limited cause).Restores fun v form ↦ compressedCount v.toNat = .ok form := by
  refine Restores.checked restores_compressed fun v form hlt hform ↦ ?_
  rw [UInt16.toNat_ofNat_of_lt' hlt]
  exact compressedCount_of_compressed hform

theorem restores_field : field.Restores fun f form ↦ f.encode = .ok form := by
  refine restores_memberFlags.bind fun flags _ hflags ↦ restores_countedString.bind fun name _ hname ↦
    restores_type.bind fun ty _ hty ↦ restores_pure ?_
  rw [FieldDecl.encode, countedStrings_cons hname (countedStrings_cons hty rfl), hflags]
  rfl

theorem restores_body : body.Restores fun b form ↦ b.encode = .ok form := by
  refine (restores_limited _).bind fun maxLocals _ hlocals ↦
    (restores_limited _).bind fun maxStack _ hstack ↦
      restores_instruction.counted.bind fun code _ hcode ↦ restores_pure ?_
  rw [Body.encode, hlocals, hstack, hcode, List.append_nil, ← List.append_assoc]
  rfl

theorem restores_method : method.Restores fun m form ↦ m.encode = .ok form := by
  refine restores_memberFlags.bind fun flags _ hflags ↦ restores_countedString.bind fun name _ hname ↦
    restores_methodType.bind fun ty _ hty ↦ restores_body.optional.bind fun body _ hbody ↦
      restores_pure ?_
  rw [MethodDecl.encode, countedStrings_cons hname (countedStrings_cons hty rfl), hbody, hflags]
  simp only [List.append_nil, ← List.append_assoc]
  rfl

theorem restores_header :
    header.Restores fun _ form ↦ form = word32Bytes imageMagic ++ word16Bytes imageVersion := by
  refine consumes_word32.restores.bind fun magic _ hmagic ↦ ?_
  split
  · exact restores_fail _
  · next h =>
    refine consumes_word16.restores.bind fun version _ hversion ↦ ?_
    split
    · exact restores_fail _
    · next h' =>
      apply restores_pure
      rw [hmagic, hversion, Classical.not_not.mp h, Classical.not_not.mp h', List.append_nil]

/-- A class that is read can be written again. -/
theorem restores_classDecl : classDecl.Restores fun c form ↦ c.encode = .ok form := by
  refine restores_header.bind fun _ _ hheader ↦ restores_classFlags.bind fun flags _ hflags ↦
    restores_countedString.bind fun name _ hname ↦
      restores_countedString.optional.bind fun superName _ hsuper ↦
        restores_field.counted.bind fun fields _ hfields ↦
          restores_method.counted.bind fun methods _ hmethods ↦ restores_pure ?_
  rw [ClassDecl.encode, hname, hsuper, hfields, hmethods, hheader, hflags]
  simp only [List.append_nil, ← List.append_assoc]
  rfl

end Reader

namespace ClassDecl

/-- The image that is written for the class that an image holds. -/
def rewritten (image : List UInt8) : Except Error (List UInt8) := do
  let c ← decode image
  c.encode

/-- The class that an image holds is written as an image that takes the place of the former. -/
theorem exists_encode_of_decode {image : List UInt8} {c : ClassDecl} (h : decode image = .ok c) :
    ∃ form, c.encode = .ok form ∧ Shortens form image := by
  obtain ⟨-, pos, hrun⟩ := decode_eq_ok_iff.mp h
  obtain ⟨used, hused, form, hform, hshort⟩ := Reader.restores_classDecl _ _ _ hrun
  rw [List.append_nil] at hused
  exact ⟨form, hform, by rwa [show image = used from hused]⟩

/-- The class that an image holds can be written again, and is read back from what is written. What
is written is no longer than the image and is the same if it is as long. So writing images again
changes them at most once. -/
theorem encode_decode_shortest {image : List UInt8} {c : ClassDecl} (h : decode image = .ok c) :
    ∃ form, c.encode = .ok form ∧ decode form = .ok c ∧ form.length ≤ image.length ∧
      (form = image ↔ form.length = image.length) ∧
      rewritten image = .ok form ∧ rewritten form = .ok form := by
  obtain ⟨form, hform, hshort⟩ := exists_encode_of_decode h
  have hback : decode form = .ok c := decode_of_encode (wellFormed_of_decode h) hform
  have hrewritten : ∀ {other : List UInt8}, decode other = .ok c → rewritten other = .ok form :=
    fun hother ↦ bind_eq_ok.mpr ⟨c, hother, hform⟩
  exact ⟨form, hform, hback, hshort.length_le, hshort.eq_iff_length_eq, hrewritten h,
    hrewritten hback⟩

/-- The image of the sample class with the length of its name in two bytes. -/
def sampleLongImage : List UInt8 := sampleImage.take 8 ++ 0x80 :: sampleImage.drop 8

/-- The longer image of the sample class is written again as its image. -/
theorem sampleLongImage_rewritten : decode sampleLongImage = .ok sample ∧
    sampleImage.length ≤ sampleLongImage.length ∧
    (sampleImage = sampleLongImage ↔ sampleImage.length = sampleLongImage.length) ∧
    rewritten sampleLongImage = .ok sampleImage ∧ rewritten sampleImage = .ok sampleImage := by
  have h : decode sampleLongImage = .ok sample := by cbv
  have hencode : sample.encode = .ok sampleImage := by cbv
  obtain ⟨form, hform, -, hle, hiff, hrewritten, hagain⟩ := encode_decode_shortest h
  obtain rfl : sampleImage = form := Except.ok.inj (hencode.symm.trans hform)
  exact ⟨h, hle, hiff, hrewritten, hagain⟩

end ClassDecl

end Hotswap
