import Hotswap.Proofs.Reading

/-!
# What readers consume

The bytes that a reader consumes for a value, compared with the bytes that are written for that
value. Only compressed numbers can be read from more bytes than are written for them; everything
else that is read is the written form itself.
-/

namespace Hotswap

/-! ### Forms of a value -/

/-- A form of a value takes the place of other bytes: it is shorter than they are, or it is these
bytes. -/
def Shortens (form used : List UInt8) : Prop := form = used ∨ form.length < used.length

namespace Shortens

variable {form used form' used' : List UInt8}

theorem length_le (h : Shortens form used) : form.length ≤ used.length := by
  rcases h with rfl | hlt
  · exact Nat.le_refl _
  · exact Nat.le_of_lt hlt

/-- A form that is as long as the bytes in its place is these bytes. -/
theorem eq_iff_length_eq (h : Shortens form used) : form = used ↔ form.length = used.length := by
  constructor
  · exact congrArg List.length
  · intro hlength
    rcases h with rfl | hlt
    · rfl
    · omega

/-- Forms one behind the other take the place of the bytes one behind the other. -/
theorem append (h : Shortens form used) (h' : Shortens form' used') :
    Shortens (form ++ form') (used ++ used') := by
  rcases h with rfl | hlt
  · rcases h' with rfl | hlt'
    · exact .inl rfl
    · right
      rw [List.length_append, List.length_append]
      omega
  · right
    have := h'.length_le
    rw [List.length_append, List.length_append]
    omega

end Shortens

/-! ### Compressed forms by their length -/

theorem compressed_one {v : Nat} (h : v < 0x80) : compressed v = .ok [UInt8.ofNat v] := if_pos h

theorem compressed_two {v : Nat} (h : ¬v < 0x80) (h' : v < 0x4000) :
    compressed v = .ok [UInt8.ofNat (0x80 + v / 0x100), UInt8.ofNat v] := by
  rw [compressed, if_neg h, if_pos h']

theorem compressed_four {v : Nat} (h : ¬v < 0x4000) (h' : v ≤ maxCompressed) :
    compressed v = .ok [UInt8.ofNat (0xC0 + v / 0x1000000), UInt8.ofNat (v / 0x10000),
      UInt8.ofNat (v / 0x100), UInt8.ofNat v] := by
  rw [compressed, if_neg (by omega), if_neg h, if_pos h']

/-- A number beyond the greatest has no compressed form. -/
theorem compressed_of_lt {v : Nat} (h : maxCompressed < v) :
    compressed v = .error (.malformed (.tooLargeToCompress v)) := by
  have hlarge : 0x4000 ≤ maxCompressed := by decide
  rw [compressed, if_neg (by omega), if_neg (by omega), if_neg (by omega)]

/-- A number up to the greatest has a compressed form. -/
theorem exists_compressed {v : Nat} (h : v ≤ maxCompressed) : ∃ form, compressed v = .ok form := by
  by_cases hone : v < 0x80
  · exact ⟨_, compressed_one hone⟩
  · by_cases htwo : v < 0x4000
    · exact ⟨_, compressed_two hone htwo⟩
    · exact ⟨_, compressed_four htwo h⟩

/-- A number that has a compressed form is not too large for one. -/
theorem le_maxCompressed {v : Nat} {form : List UInt8} (h : compressed v = .ok form) :
    v ≤ maxCompressed := by
  by_contra hgt
  rw [compressed_of_lt (Nat.lt_of_not_le hgt)] at h
  cases h

/-- A number that has a compressed form fits in 32 bits. -/
theorem lt_size_of_compressed {v : Nat} {form : List UInt8} (h : compressed v = .ok form) :
    v < UInt32.size :=
  Nat.lt_of_le_of_lt (le_maxCompressed h) (by decide)

/-- A number that has a compressed form has the same one as a count. -/
theorem compressedCount_of_compressed {v : Nat} {form : List UInt8} (h : compressed v = .ok form) :
    compressedCount v = .ok form := by
  rw [compressedCount, if_pos (lt_size_of_compressed h), h]

namespace Reader

variable {α β : Type}

/-! ### Composed readers -/

/-- Whenever a reader gives a value, what it has consumed for it has a property. -/
def Consumes (r : Reader α) (U : α → List UInt8 → Prop) : Prop :=
  ∀ c a c', r.run c = (.ok a, c') → ∃ used, c.rest = used ++ c'.rest ∧ U a used

/-- Whenever a reader gives a value, the value has a form that takes the place of what was
consumed. -/
def Restores (r : Reader α) (F : α → List UInt8 → Prop) : Prop :=
  r.Consumes fun a used ↦ ∃ form, F a form ∧ Shortens form used

theorem Consumes.imp {r : Reader α} {U V : α → List UInt8 → Prop} (hr : r.Consumes U)
    (h : ∀ a used, U a used → V a used) : r.Consumes V := by
  intro c a c' hrun
  obtain ⟨used, hrest, hU⟩ := hr c a c' hrun
  exact ⟨used, hrest, h a used hU⟩

/-- Readers in turn consume what each of them does. -/
theorem Consumes.bind {r : Reader α} {f : α → Reader β} {U : α → List UInt8 → Prop}
    {V : β → List UInt8 → Prop} (hr : r.Consumes U)
    (hf : ∀ a used, U a used → (f a).Consumes fun b more ↦ V b (used ++ more)) :
    (r >>= f).Consumes V := by
  intro c b c' h
  rw [run_bind] at h
  split at h
  · next a d ha =>
    obtain ⟨used, hrest, hU⟩ := hr c a d ha
    obtain ⟨more, hmore, hV⟩ := hf a used hU d b c' h
    exact ⟨used ++ more, by rw [hrest, hmore, List.append_assoc], hV⟩
  · cases h

theorem consumes_pure {V : α → List UInt8 → Prop} {a : α} (h : V a []) :
    (pure a : Reader α).Consumes V := by
  intro c b c' hb
  cases hb
  exact ⟨[], rfl, h⟩

theorem consumes_fail {V : α → List UInt8 → Prop} (cause : Malformed) :
    (fail cause : Reader α).Consumes V := by
  intro c a c' h
  cases h

/-- Taking over an outcome consumes nothing. -/
theorem consumes_ofExcept {V : α → List UInt8 → Prop} {r : Except Error α}
    (h : ∀ a, r = .ok a → V a []) : (ofExcept r).Consumes V := by
  intro c a c' ha
  cases ha
  exact ⟨[], rfl, h a rfl⟩

theorem consumes_position : position.Consumes fun _ used ↦ used = [] := by
  intro c n c' h
  cases h
  exact ⟨[], rfl, rfl⟩

theorem consumes_remaining : remaining.Consumes fun _ used ↦ used = [] := by
  intro c n c' h
  cases h
  exact ⟨[], rfl, rfl⟩

/-- What is consumed for a value can be its form. -/
theorem Consumes.restores {r : Reader α} {F : α → List UInt8 → Prop} (hr : r.Consumes F) :
    r.Restores F :=
  hr.imp fun _ used h ↦ ⟨used, h, .inl rfl⟩

theorem Restores.imp {r : Reader α} {F G : α → List UInt8 → Prop} (hr : r.Restores F)
    (h : ∀ a form, F a form → G a form) : r.Restores G := by
  refine Consumes.imp hr fun a used ⟨form, hF, hshort⟩ ↦ ?_
  exact ⟨form, h a form hF, hshort⟩

/-- The forms of values that are read in turn, one behind the other, are a form of the last
value. -/
theorem Restores.bind {r : Reader α} {f : α → Reader β} {F : α → List UInt8 → Prop}
    {G : β → List UInt8 → Prop} (hr : r.Restores F)
    (hf : ∀ a form, F a form → (f a).Restores fun b more ↦ G b (form ++ more)) :
    (r >>= f).Restores G := by
  refine Consumes.bind hr fun a used ⟨form, hF, hshort⟩ ↦ ?_
  refine Consumes.imp (hf a form hF) fun b more ⟨form', hG, hshort'⟩ ↦ ?_
  exact ⟨form ++ form', hG, hshort.append hshort'⟩

theorem restores_pure {G : α → List UInt8 → Prop} {a : α} (h : G a []) :
    (pure a : Reader α).Restores G :=
  (consumes_pure h).restores

theorem restores_fail {G : α → List UInt8 → Prop} (cause : Malformed) :
    (fail cause : Reader α).Restores G :=
  consumes_fail cause

theorem restores_position : position.Restores fun _ form ↦ form = [] := consumes_position.restores

theorem restores_remaining : remaining.Restores fun _ form ↦ form = [] :=
  consumes_remaining.restores

/-- A function on the value carries the forms over. -/
theorem Restores.map {r : Reader α} {f : α → β} {G : β → List UInt8 → Prop}
    (hr : r.Restores fun a form ↦ G (f a) form) : (f <$> r).Restores G := by
  refine Restores.bind hr fun a form h ↦ restores_pure ?_
  rw [List.append_nil]
  exact h

/-- Where some values are refused, the others keep their forms. -/
theorem Restores.checked {r : Reader α} {F : α → List UInt8 → Prop} {G : β → List UInt8 → Prop}
    (hr : r.Restores F) {p : α → Prop} [DecidablePred p] {f : α → β} {cause : α → Malformed}
    (h : ∀ a form, p a → F a form → G (f a) form) :
    Restores (r >>= fun a ↦ if p a then pure (f a) else fail (cause a)) G := by
  refine hr.bind fun a form hF ↦ ?_
  split
  · next hp =>
    apply restores_pure
    rw [List.append_nil]
    exact h a form hp hF
  · exact restores_fail _

/-! ### Bytes, words and truth values -/

theorem consumes_byte : byte.Consumes fun b used ↦ used = [b] := by
  intro c b c' h
  obtain ⟨rest, pos⟩ := c
  cases rest with
  | nil => cases h
  | cons b rest =>
    cases h
    exact ⟨[b], rfl, rfl⟩

theorem consumes_bytes (n : Nat) :
    (bytes n).Consumes fun taken used ↦ used = taken ∧ taken.length = n := by
  intro c taken c' h
  simp only [bytes] at h
  split at h
  · next rest hsplit =>
    cases h
    obtain ⟨hlength, hrest⟩ := splitExactly?_eq_some.mp hsplit
    exact ⟨taken, hrest, rfl, hlength⟩
  · cases h

/-- A number of `n` bytes is read from its lowest bytes only. -/
theorem consumes_number (n : Nat) :
    (number n).Consumes fun v used ↦ used = littleEndian n v ∧ v < 256 ^ n := by
  refine (consumes_bytes n).bind fun taken used ⟨hused, hlength⟩ ↦ consumes_pure ⟨?_, ?_⟩
  · rw [List.append_nil, hused, ← hlength, littleEndian_ofLittleEndian]
  · rw [← hlength]
    exact ofLittleEndian_lt taken

theorem consumes_word16 : word16.Consumes fun w used ↦ used = word16Bytes w := by
  refine (consumes_number 2).bind fun v _ ⟨hused, hlt⟩ ↦ consumes_pure ?_
  rw [List.append_nil, hused, word16Bytes, UInt16.toNat_ofNat_of_lt' hlt]

theorem consumes_word32 : word32.Consumes fun w used ↦ used = word32Bytes w := by
  refine (consumes_number 4).bind fun v _ ⟨hused, hlt⟩ ↦ consumes_pure ?_
  rw [List.append_nil, hused, word32Bytes, UInt32.toNat_ofNat_of_lt' hlt]

theorem consumes_word64 : word64.Consumes fun w used ↦ used = word64Bytes w := by
  refine (consumes_number 8).bind fun v _ ⟨hused, hlt⟩ ↦ consumes_pure ?_
  rw [List.append_nil, hused, word64Bytes, UInt64.toNat_ofNat_of_lt' hlt]

theorem consumes_boolean : boolean.Consumes fun b used ↦ used = [booleanByte b] := by
  refine consumes_byte.bind fun b _ hused ↦ ?_
  subst hused
  split
  · next h =>
    subst h
    exact consumes_pure rfl
  · split
    · next h =>
      subst h
      exact consumes_pure rfl
    · exact consumes_position.bind fun _ _ _ ↦ consumes_fail _

/-! ### Compressed numbers, strings and counts -/

private theorem ofNat_eq_of_mod {b : UInt8} {n : Nat} (h : n % 0x100 = b.toNat) :
    UInt8.ofNat n = b := by
  apply UInt8.toNat_inj.mp
  rw [UInt8.toNat_ofNat']
  exact h

/-- A number that is read has a compressed form, which takes the place of what was read. -/
theorem restores_compressed : compressed.Restores fun v form ↦ Hotswap.compressed v = .ok form := by
  -- The first byte says how many bytes were read, and the number how many are written for it.
  refine consumes_byte.bind fun b₀ _ hb₀ ↦ ?_
  subst hb₀
  have hlt₀ := b₀.toNat_lt
  split
  · next hb =>
    apply consumes_pure
    have hform : Hotswap.compressed b₀.toNat = .ok [b₀] := by
      rw [compressed_one hb, UInt8.ofNat_toNat]
    exact ⟨_, hform, .inl rfl⟩
  · split
    · next hb hb' =>
      refine consumes_byte.bind fun b₁ _ hb₁ ↦ ?_
      subst hb₁
      have hlt₁ := b₁.toNat_lt
      apply consumes_pure
      generalize hv : (b₀.toNat - 0x80) * 0x100 + b₁.toNat = v
      by_cases hone : v < 0x80
      · exact ⟨_, compressed_one hone, .inr (by simp)⟩
      · have h₀ : (0x80 + v / 0x100) % 0x100 = b₀.toNat := by omega
        have h₁ : v % 0x100 = b₁.toNat := by omega
        have hform : Hotswap.compressed v = .ok [b₀, b₁] := by
          rw [compressed_two hone (by omega), ofNat_eq_of_mod h₀, ofNat_eq_of_mod h₁]
        exact ⟨_, hform, .inl rfl⟩
    · split
      · next hb hb' hb'' =>
        refine consumes_byte.bind fun b₁ _ hb₁ ↦ ?_
        refine consumes_byte.bind fun b₂ _ hb₂ ↦ ?_
        refine consumes_byte.bind fun b₃ _ hb₃ ↦ ?_
        subst hb₁ hb₂ hb₃
        have hlt₁ := b₁.toNat_lt
        have hlt₂ := b₂.toNat_lt
        have hlt₃ := b₃.toNat_lt
        apply consumes_pure
        generalize hv : (b₀.toNat - 0xC0) * 0x1000000 + b₁.toNat * 0x10000 + b₂.toNat * 0x100 +
          b₃.toNat = v
        by_cases hone : v < 0x80
        · exact ⟨_, compressed_one hone, .inr (by simp)⟩
        · by_cases htwo : v < 0x4000
          · exact ⟨_, compressed_two hone htwo, .inr (by simp)⟩
          · have hle : v ≤ maxCompressed := by
              simp only [maxCompressed]
              omega
            have h₀ : (0xC0 + v / 0x1000000) % 0x100 = b₀.toNat := by omega
            have h₁ : v / 0x10000 % 0x100 = b₁.toNat := by omega
            have h₂ : v / 0x100 % 0x100 = b₂.toNat := by omega
            have h₃ : v % 0x100 = b₃.toNat := by omega
            have hform : Hotswap.compressed v = .ok [b₀, b₁, b₂, b₃] := by
              rw [compressed_four htwo hle, ofNat_eq_of_mod h₀, ofNat_eq_of_mod h₁,
                ofNat_eq_of_mod h₂, ofNat_eq_of_mod h₃]
            exact ⟨_, hform, .inl rfl⟩
      · exact consumes_fail _

/-- A string that is read has a counted form. -/
theorem restores_countedString :
    countedString.Restores fun s form ↦ Hotswap.countedString s = .ok form := by
  refine Restores.bind restores_compressed fun length front hfront ↦ ?_
  refine (consumes_bytes length).restores.bind fun octets form ⟨hform, hlength⟩ ↦ ?_
  subst hlength
  split
  · next s hs =>
    apply restores_pure
    have hoctets : octets = Text.Utf8.encode s := Text.Utf8.eq_encode_of_decode hs
    rw [hoctets] at hfront
    rw [Hotswap.countedString, if_pos (lt_size_of_compressed hfront), hfront, hform, hoctets,
      List.append_nil]
    rfl
  · exact restores_position.bind fun _ _ _ ↦ restores_fail _

/-- A count that is read has a compressed form. -/
theorem restores_count : count.Restores fun n form ↦ compressedCount n = .ok form := by
  refine Restores.bind restores_compressed fun n form hform ↦ ?_
  refine restores_remaining.bind fun left nothing hnothing ↦ ?_
  subst hnothing
  split
  · exact restores_fail _
  · apply restores_pure
    rw [List.append_nil, List.append_nil]
    exact compressedCount_of_compressed hform

end Reader

end Hotswap
