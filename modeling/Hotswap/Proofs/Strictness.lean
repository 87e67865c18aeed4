import Hotswap.Proofs.ClassImage

/-!
# Images with more or fewer bytes

Readers are local: what one reads does not depend on the bytes behind those that it consumes,
although a count is compared with all the bytes that are left. So an image of a class with bytes
behind it is no image, and neither is one with its last bytes missing.
-/

namespace Hotswap

/-- The errors of input that is too short or does not follow the format. -/
def Error.BlamesBytes (e : Error) : Prop := e = .outOfBounds ∨ ∃ cause, e = .malformed cause

namespace Reader

variable {α β : Type}

/-- More input changes nothing about what is read. Any failure that does not blame the bytes stays
the same with more input. -/
structure Stable (r : Reader α) : Prop where
  ok : ∀ {front : List UInt8} {pos : Nat} {a : α} {c : Cursor}, r.run ⟨front, pos⟩ = (.ok a, c) →
    ∀ back, r.run ⟨front ++ back, pos⟩ = (.ok a, ⟨c.rest ++ back, c.pos⟩)
  error : ∀ {front : List UInt8} {pos : Nat} {e : Error} {c : Cursor},
    r.run ⟨front, pos⟩ = (.error e, c) →
      e.BlamesBytes ∨ ∀ back, ∃ d, r.run ⟨front ++ back, pos⟩ = (.error e, d)

/-! ### Composed readers -/

/-- A reader that consumes nothing and does not look at what is left is stable. -/
theorem stable_of_run_eq {r : Reader α} (outcome : Nat → Except Error α)
    (h : ∀ c : Cursor, r.run c = (outcome c.pos, c)) : r.Stable := by
  constructor
  · intro front pos a c hrun back
    rw [h] at hrun ⊢
    obtain ⟨hvalue, rfl⟩ := Prod.mk.inj hrun
    rw [← hvalue]
  · intro front pos e c hrun
    rw [h] at hrun
    right
    intro back
    rw [h, (Prod.mk.inj hrun).1]
    exact ⟨_, rfl⟩

theorem stable_pure (a : α) : (pure a : Reader α).Stable :=
  stable_of_run_eq (fun _ ↦ .ok a) fun _ ↦ rfl

theorem stable_ofExcept (r : Except Error α) : (ofExcept r).Stable :=
  stable_of_run_eq (fun _ ↦ r) fun _ ↦ rfl

theorem stable_fail (cause : Malformed) : (fail cause : Reader α).Stable := stable_ofExcept _

theorem stable_position : position.Stable := stable_of_run_eq .ok fun _ ↦ rfl

/-- Readers in turn are stable when each of them is. -/
theorem Stable.bind {r : Reader α} {f : α → Reader β} (hr : r.Stable) (hf : ∀ a, (f a).Stable) :
    (r >>= f).Stable := by
  constructor
  · intro front pos b c h back
    rw [run_bind] at h ⊢
    split at h
    · next a d hd =>
      rw [hr.ok hd back]
      exact (hf a).ok h back
    · cases h
  · intro front pos e c h
    rw [run_bind] at h
    split at h
    · next a d hd =>
      rcases (hf a).error h with hblame | hstays
      · exact .inl hblame
      · right
        intro back
        rw [run_bind, hr.ok hd back]
        exact hstays back
    · next d hd =>
      cases h
      rcases hr.error hd with hblame | hstays
      · exact .inl hblame
      · right
        intro back
        obtain ⟨d', hd'⟩ := hstays back
        rw [run_bind, hd']
        exact ⟨d', rfl⟩

/-- A function on the value keeps a reader stable. -/
theorem Stable.map {r : Reader α} (f : α → β) (hr : r.Stable) : (f <$> r).Stable :=
  hr.bind fun a ↦ stable_pure (f a)

/-- Refusing some of the values keeps a reader stable. -/
theorem Stable.checked {r : Reader α} (hr : r.Stable) (p : α → Prop) [DecidablePred p] (f : α → β)
    (cause : α → Malformed) :
    Stable (r >>= fun a ↦ if p a then pure (f a) else fail (cause a)) := by
  refine hr.bind fun a ↦ ?_
  split
  · exact stable_pure _
  · exact stable_fail _

/-! ### Bytes, words and truth values -/

theorem stable_byte : byte.Stable := by
  constructor
  · intro front pos b c h back
    cases front with
    | nil => cases h
    | cons b front =>
      cases h
      rfl
  · intro front pos e c h
    cases front with
    | nil =>
      cases h
      exact .inl (.inl rfl)
    | cons b front => cases h

theorem stable_bytes (n : Nat) : (bytes n).Stable := by
  constructor
  · intro front pos taken c h back
    simp only [bytes] at h
    split at h
    · next rest hsplit =>
      cases h
      obtain ⟨rfl, rfl⟩ := splitExactly?_eq_some.mp hsplit
      rw [List.append_assoc]
      exact run_bytes_append taken (rest ++ back) pos
    · cases h
  · intro front pos e c h
    left
    simp only [bytes] at h
    split at h
    · cases h
    · cases h
      exact .inl rfl

theorem stable_number (n : Nat) : (number n).Stable := (stable_bytes n).map _

theorem stable_word16 : word16.Stable := (stable_number 2).map _

theorem stable_word32 : word32.Stable := (stable_number 4).map _

theorem stable_word64 : word64.Stable := (stable_number 8).map _

theorem stable_boolean : boolean.Stable := by
  refine stable_byte.bind fun b ↦ ?_
  split
  · exact stable_pure _
  · split
    · exact stable_pure _
    · exact stable_position.bind fun _ ↦ stable_fail _

/-! ### Compressed numbers, strings and counts -/

theorem stable_compressed : compressed.Stable := by
  refine stable_byte.bind fun b ↦ ?_
  split
  · exact stable_pure _
  · split
    · exact stable_byte.bind fun _ ↦ stable_pure _
    · split
      · exact stable_byte.bind fun _ ↦ stable_byte.bind fun _ ↦ stable_byte.bind fun _ ↦
          stable_pure _
      · exact stable_fail _

theorem stable_countedString : countedString.Stable := by
  refine stable_compressed.bind fun length ↦ (stable_bytes length).bind fun octets ↦ ?_
  split
  · exact stable_pure _
  · exact stable_position.bind fun _ ↦ stable_fail _

/-- A plausible count stays plausible when more bytes are left, and one that is not blames the
bytes. -/
theorem stable_count : count.Stable := by
  -- `remaining` is not stable, so the comparison is opened together with it.
  have hplausible : ∀ n, Stable (remaining >>= fun left ↦
      if left < n then fail (.implausibleCount n left) else pure n) := by
    intro n
    constructor
    · intro front pos a c h back
      simp only [run_bind, run_remaining] at h ⊢
      by_cases hlt : front.length < n
      · rw [if_pos hlt] at h
        cases h
      · rw [if_neg hlt] at h
        have hlt' : ¬(front ++ back).length < n := by
          rw [List.length_append]
          omega
        rw [if_neg hlt']
        cases h
        rfl
    · intro front pos e c h
      left
      simp only [run_bind, run_remaining] at h
      by_cases hlt : front.length < n
      · rw [if_pos hlt] at h
        cases h
        exact .inr ⟨_, rfl⟩
      · rw [if_neg hlt] at h
        cases h
  exact stable_compressed.bind hplausible

/-- Reading several times is stable when reading once is. -/
theorem Stable.times {read : Reader α} (h : read.Stable) (n : Nat) : (times read n).Stable := by
  induction n with
  | zero => exact stable_of_run_eq (fun _ ↦ .ok []) fun _ ↦ rfl
  | succ n ih =>
    rw [times_succ]
    exact h.bind fun a ↦ ih.map _

theorem Stable.counted {read : Reader α} (h : read.Stable) : (counted read).Stable :=
  stable_count.bind h.times

theorem Stable.optional {read : Reader α} (h : read.Stable) : (optional read).Stable := by
  refine stable_boolean.bind fun b ↦ ?_
  split
  · exact h.map _
  · exact stable_pure _

/-! ### Instructions -/

theorem stable_type : type.Stable := stable_countedString.bind fun _ ↦ stable_ofExcept _

theorem stable_methodType : methodType.Stable := stable_countedString.bind fun _ ↦ stable_ofExcept _

theorem stable_fieldRef : fieldRef.Stable :=
  stable_countedString.bind fun _ ↦ stable_countedString.bind fun _ ↦
    stable_type.bind fun _ ↦ stable_pure _

theorem stable_methodRef : methodRef.Stable :=
  stable_countedString.bind fun _ ↦ stable_countedString.bind fun _ ↦
    stable_methodType.bind fun _ ↦ stable_pure _

theorem stable_nativeRef : nativeRef.Stable :=
  stable_countedString.bind fun _ ↦ stable_methodType.bind fun _ ↦ stable_pure _

theorem stable_operands (op : Opcode) : (operands op).Stable := by
  cases op with
  | constInt | jump | jumpIfZero | jumpIfNonZero => exact stable_word32.map _
  | constLong | constDouble => exact stable_word64.map _
  | constStr | new => exact stable_countedString.map _
  | load | store => exact stable_word16.map _
  | getField | putField | getStatic | putStatic => exact stable_fieldRef.map _
  | invokeVirtual | invokeStatic => exact stable_methodRef.map _
  | callNative => exact stable_nativeRef.map _
  | _ => exact stable_pure _

theorem stable_instruction : instruction.Stable := by
  refine stable_byte.bind fun b ↦ ?_
  split
  · exact stable_operands _
  · exact stable_position.bind fun _ ↦ stable_fail _

/-! ### Classes -/

theorem stable_memberFlags : memberFlags.Stable := stable_word16.checked _ id _

theorem stable_classFlags : classFlags.Stable := stable_word16.checked _ id _

theorem stable_limited (cause : Nat → Malformed) : (limited cause).Stable :=
  stable_compressed.checked _ UInt16.ofNat cause

theorem stable_field : field.Stable :=
  stable_memberFlags.bind fun _ ↦ stable_countedString.bind fun _ ↦
    stable_type.bind fun _ ↦ stable_pure _

theorem stable_body : body.Stable :=
  (stable_limited _).bind fun _ ↦ (stable_limited _).bind fun _ ↦
    stable_instruction.counted.bind fun _ ↦ stable_pure _

theorem stable_method : method.Stable :=
  stable_memberFlags.bind fun _ ↦ stable_countedString.bind fun _ ↦
    stable_methodType.bind fun _ ↦ stable_body.optional.bind fun _ ↦ stable_pure _

theorem stable_header : header.Stable := by
  refine stable_word32.bind fun magic ↦ ?_
  split
  · exact stable_fail _
  · refine stable_word16.bind fun version ↦ ?_
    split
    · exact stable_fail _
    · exact stable_pure _

/-- Reading a class up to its last method does not depend on what follows. -/
theorem stable_classDecl : classDecl.Stable :=
  stable_header.bind fun _ ↦ stable_classFlags.bind fun _ ↦
    stable_countedString.bind fun _ ↦ stable_countedString.optional.bind fun _ ↦
      stable_field.counted.bind fun _ ↦ stable_method.counted.bind fun _ ↦ stable_pure _

end Reader

namespace ClassDecl

/-- An input that is not empty is judged by what stands behind the class in it. -/
theorem decode_of_run_eq_ok {image : List UInt8} {c : ClassDecl} {d : Cursor} (hne : image ≠ [])
    (h : Reader.classDecl.run (.start image) = (.ok c, d)) :
    decode image = if d.rest = [] then .ok c
      else .error (.malformed (.trailingBytes d.rest.length c.name)) := by
  have hempty : image.isEmpty = false := by simp [hne]
  simp only [decode, hempty, Bool.false_eq_true, if_false, Reader.image, Reader.run_bind, h,
    Reader.run_remaining, List.length_eq_zero_iff]
  split <;> rfl

/-- An input that is not empty and has no class in front is refused for that. -/
theorem decode_of_run_eq_error {image : List UInt8} {e : Error} {d : Cursor} (hne : image ≠ [])
    (h : Reader.classDecl.run (.start image) = (.error e, d)) : decode image = .error e := by
  have hempty : image.isEmpty = false := by simp [hne]
  simp only [decode, hempty, Bool.false_eq_true, if_false, Reader.image, Reader.run_bind, h]

/-- An input holds a class when it ends with the class in it. -/
theorem decode_eq_ok_iff {image : List UInt8} {c : ClassDecl} :
    decode image = .ok c ↔
      image ≠ [] ∧ ∃ pos, Reader.classDecl.run (.start image) = (.ok c, ⟨[], pos⟩) := by
  constructor
  · intro h
    have hne : image ≠ [] := by
      rintro rfl
      cases h
    refine ⟨hne, ?_⟩
    cases hrun : Reader.classDecl.run (.start image) with
    | mk outcome d =>
      cases outcome with
      | ok c' =>
        rw [decode_of_run_eq_ok hne hrun] at h
        split at h
        · next hrest =>
          cases h
          exact ⟨d.pos, by rw [← hrest]⟩
        · cases h
      | error e =>
        rw [decode_of_run_eq_error hne hrun] at h
        cases h
  · rintro ⟨hne, pos, hrun⟩
    rw [decode_of_run_eq_ok hne hrun, if_pos rfl]

/-- Bytes behind an image are trailing bytes. -/
theorem decode_append {image : List UInt8} {c : ClassDecl} (h : decode image = .ok c)
    {back : List UInt8} (hback : back ≠ []) :
    decode (image ++ back) = .error (.malformed (.trailingBytes back.length c.name)) := by
  obtain ⟨hne, pos, hrun⟩ := decode_eq_ok_iff.mp h
  have hmore : Reader.classDecl.run (.start (image ++ back)) = (.ok c, ⟨back, pos⟩) :=
    Reader.stable_classDecl.ok hrun back
  have hne' : image ++ back ≠ [] := by simp [hne]
  rw [decode_of_run_eq_ok hne' hmore, if_neg hback]

/-- The front of an image is refused, and its bytes are to blame unless there are none. -/
theorem decode_of_append {front back : List UInt8} {c : ClassDecl} (hback : back ≠ [])
    (h : decode (front ++ back) = .ok c) :
    ∃ e, decode front = .error e ∧ if front = [] then e = .empty else e.BlamesBytes := by
  by_cases hfront : front = []
  · subst hfront
    exact ⟨.empty, rfl, by rw [if_pos rfl]⟩
  obtain ⟨-, pos, hwhole⟩ := decode_eq_ok_iff.mp h
  simp only [if_neg hfront]
  cases hrun : Reader.classDecl.run (.start front) with
  | mk outcome d =>
    cases outcome with
    | ok c' =>
      -- A class in the front leaves the back behind it, so the whole is no image.
      have hmore : Reader.classDecl.run (.start (front ++ back)) = _ :=
        Reader.stable_classDecl.ok hrun back
      rw [hwhole] at hmore
      have hrest : [] = d.rest ++ back := congrArg (·.2.rest) hmore
      exact absurd (List.append_eq_nil_iff.mp hrest.symm).2 hback
    | error e =>
      refine ⟨e, decode_of_run_eq_error hfront hrun, ?_⟩
      rcases Reader.stable_classDecl.error hrun with hblame | hstays
      · exact hblame
      · obtain ⟨d', hd'⟩ := hstays back
        have hfails : Reader.classDecl.run (.start (front ++ back)) = (.error e, d') := hd'
        rw [hwhole] at hfails
        cases hfails

/-- No image of a class is the front of another image of any class, and reading says why: bytes
behind an image are trailing bytes, and its front is too short or malformed, or empty. -/
theorem decode_prefix_free {image : List UInt8} {c : ClassDecl} (h : decode image = .ok c) :
    (∀ back, back ≠ [] →
      decode (image ++ back) = .error (.malformed (.trailingBytes back.length c.name))) ∧
    (∀ front, front <+: image → front ≠ image →
      ∃ e, decode front = .error e ∧ if front = [] then e = .empty else e.BlamesBytes) ∧
    ∀ other d, decode other = .ok d → other <+: image ∨ image <+: other → other = image := by
  have hfront : ∀ front, front <+: image → front ≠ image →
      ∃ e, decode front = .error e ∧ if front = [] then e = .empty else e.BlamesBytes := by
    rintro front ⟨back, rfl⟩ hne
    have hback : back ≠ [] := by
      rintro rfl
      exact hne (List.append_nil front).symm
    exact decode_of_append hback h
  refine ⟨fun back ↦ decode_append h, hfront, ?_⟩
  rintro other d hother (hshort | ⟨back, rfl⟩)
  · by_contra hne
    obtain ⟨e, he, -⟩ := hfront other hshort hne
    rw [hother] at he
    cases he
  · by_contra hne
    have hback : back ≠ [] := by
      rintro rfl
      exact hne (List.append_nil image)
    rw [decode_append h hback] at hother
    cases hother

/-- The image of the sample class is refused with a byte more, or with its last byte missing. -/
theorem sampleImage_prefix_free : decode sampleImage = .ok sample ∧
    decode (sampleImage ++ [0]) = .error (.malformed (.trailingBytes 1 "a.B")) ∧
    ∃ e, decode sampleImage.dropLast = .error e ∧ e.BlamesBytes := by
  have h : decode sampleImage = .ok sample := by cbv
  obtain ⟨hback, hfront, -⟩ := decode_prefix_free h
  obtain ⟨e, he, hblames⟩ := hfront sampleImage.dropLast (List.dropLast_prefix _) (by decide)
  exact ⟨h, hback [0] (by decide), e, he, hblames⟩

end ClassDecl

end Hotswap
