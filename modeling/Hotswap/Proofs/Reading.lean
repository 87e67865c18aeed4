import Hotswap.Binary.Compressed
import Hotswap.Proofs.LittleEndian
import Hotswap.Proofs.Results

/-!
# Laws of readers

What a reader does in front of bytes that were written for it, which values it can give at all, and
for which causes it can fail. Each law of a composed reader follows from those of its parts.
-/

namespace Hotswap

namespace Reader

variable {α β : Type}

/-- A reader consumes exactly these bytes and gives this value, whatever follows them. -/
def Reads (r : Reader α) (bs : List UInt8) (a : α) : Prop :=
  ∀ rest pos, r.run ⟨bs ++ rest, pos⟩ = (.ok a, ⟨rest, pos + bs.length⟩)

/-- Every value that a reader gives has a property. -/
def Yields (r : Reader α) (P : α → Prop) : Prop :=
  ∀ c a c', r.run c = (.ok a, c') → P a

/-- A reader fails only because of its input. -/
def FailsOnInput (r : Reader α) : Prop :=
  ∀ c e c', r.run c = (.error e, c') →
    e = .outOfBounds ∨ (∃ cause, e = .malformed cause) ∨ ∃ limit, e = .recursionLimit limit

/-! ### Composed readers -/

/-- A value alone is read from nothing. -/
theorem reads_pure (a : α) : Reads (pure a) [] a := by
  intro rest pos
  simp

/-- Readers in turn read their bytes in turn. -/
theorem Reads.bind {r : Reader α} {f : α → Reader β} {bs cs : List UInt8} {a : α} {b : β}
    (hr : r.Reads bs a) (hf : (f a).Reads cs b) : (r >>= f).Reads (bs ++ cs) b := by
  intro rest pos
  rw [run_bind, List.append_assoc, hr]
  simp only [hf rest, List.length_append, Nat.add_assoc]

/-- A last reader that consumes nothing leaves the bytes as they are. -/
theorem Reads.bind_nil {r : Reader α} {f : α → Reader β} {bs : List UInt8} {a : α} {b : β}
    (hr : r.Reads bs a) (hf : (f a).Reads [] b) : (r >>= f).Reads bs b := by
  have h := hr.bind hf
  rwa [List.append_nil] at h

/-- A function on the value does not change what is consumed. -/
theorem Reads.map {r : Reader α} {bs : List UInt8} {a : α} (f : α → β) (hr : r.Reads bs a) :
    (f <$> r).Reads bs (f a) := by
  intro rest pos
  rw [run_map, hr]
  rfl

/-- A function on the last value of readers in turn is one on the value of the last reader. -/
theorem map_bind {γ : Type} (g : β → γ) (r : Reader α) (f : α → Reader β) :
    g <$> (r >>= f) = r >>= fun a ↦ g <$> f a := by
  have hrun : ∀ c, (g <$> (r >>= f)).run c = (r >>= fun a ↦ g <$> f a).run c := by
    intro c
    rw [run_map, run_bind, run_bind]
    match r.run c with
    | (.ok a, d) => exact (run_map g (f a) d).symm
    | (.error e, d) => rfl
  exact congrArg Reader.mk (funext hrun)

/-- The last value of readers in turn comes from the last reader. -/
theorem Yields.bind {r : Reader α} {f : α → Reader β} {P : α → Prop} {Q : β → Prop}
    (hr : r.Yields P) (hf : ∀ a, P a → (f a).Yields Q) : (r >>= f).Yields Q := by
  intro c b c' h
  rw [run_bind] at h
  split at h
  · next a d ha => exact hf a (hr c a d ha) d b c' h
  · cases h

/-- Every reader gives some value. -/
theorem yields_true (r : Reader α) : r.Yields fun _ ↦ True := fun _ _ _ _ ↦ trivial

/-- A value alone is what is given. -/
theorem yields_pure {P : α → Prop} {a : α} (h : P a) : (pure a : Reader α).Yields P := by
  intro c b c' hb
  cases hb
  exact h

/-- A function on the value carries a property over. -/
theorem Yields.map {r : Reader α} {P : β → Prop} {f : α → β} (hr : r.Yields fun a ↦ P (f a)) :
    (f <$> r).Yields P := by
  intro c b c' h
  rw [run_map] at h
  obtain ⟨h, -⟩ := Prod.mk.inj h
  obtain ⟨a, ha, rfl⟩ := map_eq_ok.mp h
  exact hr c a _ (Prod.ext ha rfl)

/-- Readers in turn fail as one of them does. -/
theorem FailsOnInput.bind {r : Reader α} {f : α → Reader β} (hr : r.FailsOnInput)
    (hf : ∀ a, (f a).FailsOnInput) : (r >>= f).FailsOnInput := by
  intro c e c' h
  rw [run_bind] at h
  split at h
  · next a d _ => exact hf a d e c' h
  · next d hd =>
    cases h
    exact hr c _ _ hd

/-- A value alone does not fail. -/
theorem failsOnInput_pure (a : α) : (pure a : Reader α).FailsOnInput := by
  intro c e c' h
  cases h

/-- A function on the value keeps the failures. -/
theorem FailsOnInput.map {r : Reader α} (f : α → β) (hr : r.FailsOnInput) :
    (f <$> r).FailsOnInput := by
  intro c e c' h
  rw [run_map] at h
  obtain ⟨h, -⟩ := Prod.mk.inj h
  exact hr c e _ (Prod.ext (map_eq_error.mp h) rfl)

/-- Giving up is a failure on the input. -/
theorem failsOnInput_fail (cause : Malformed) : (fail cause : Reader α).FailsOnInput := by
  intro c e c' h
  cases h
  exact .inr (.inl ⟨cause, rfl⟩)

/-- Giving up yields nothing. -/
theorem yields_fail {P : α → Prop} (cause : Malformed) : (fail cause : Reader α).Yields P := by
  intro c a c' h
  cases h

/-! ### Bytes, words and truth values -/

/-- A byte is read from itself. -/
theorem reads_byte (b : UInt8) : byte.Reads [b] b := by
  intro rest pos
  rfl

/-- Bytes are read from themselves. -/
theorem reads_bytes (bs : List UInt8) : (bytes bs.length).Reads bs bs := by
  intro rest pos
  simp

theorem failsOnInput_byte : byte.FailsOnInput := by
  intro c e c' h
  simp only [byte] at h
  split at h <;> cases h
  exact .inl rfl

theorem failsOnInput_bytes (n : Nat) : (bytes n).FailsOnInput := by
  intro c e c' h
  simp only [bytes] at h
  split at h <;> cases h
  exact .inl rfl

theorem failsOnInput_position : position.FailsOnInput := by
  intro c e c' h
  cases h

theorem failsOnInput_remaining : remaining.FailsOnInput := by
  intro c e c' h
  cases h

/-- A number of `n` bytes is read from its lowest bytes. -/
theorem reads_number {n v : Nat} (hv : v < 256 ^ n) : (number n).Reads (littleEndian n v) v := by
  have h := (reads_bytes (littleEndian n v)).map ofLittleEndian
  rw [length_littleEndian, ofLittleEndian_littleEndian, Nat.mod_eq_of_lt hv] at h
  exact h

theorem reads_word16 (w : UInt16) : word16.Reads (word16Bytes w) w := by
  have h := (reads_number (n := 2) w.toNat_lt).map UInt16.ofNat
  rwa [UInt16.ofNat_toNat] at h

theorem reads_word32 (w : UInt32) : word32.Reads (word32Bytes w) w := by
  have h := (reads_number (n := 4) w.toNat_lt).map UInt32.ofNat
  rwa [UInt32.ofNat_toNat] at h

theorem reads_word64 (w : UInt64) : word64.Reads (word64Bytes w) w := by
  have h := (reads_number (n := 8) w.toNat_lt).map UInt64.ofNat
  rwa [UInt64.ofNat_toNat] at h

theorem failsOnInput_number (n : Nat) : (number n).FailsOnInput := (failsOnInput_bytes n).map _

theorem failsOnInput_word16 : word16.FailsOnInput := (failsOnInput_number 2).map _

theorem failsOnInput_word32 : word32.FailsOnInput := (failsOnInput_number 4).map _

theorem failsOnInput_word64 : word64.FailsOnInput := (failsOnInput_number 8).map _

/-- A truth value is read from its byte. -/
theorem reads_boolean (b : Bool) : boolean.Reads [booleanByte b] b := by
  apply (reads_byte _).bind_nil
  cases b <;> exact reads_pure _

theorem failsOnInput_boolean : boolean.FailsOnInput := by
  apply failsOnInput_byte.bind
  intro b
  split
  · exact failsOnInput_pure _
  · split
    · exact failsOnInput_pure _
    · exact failsOnInput_position.bind fun _ ↦ failsOnInput_fail _

/-! ### Compressed numbers and counted strings -/

/-- A number is read from its compressed form. -/
theorem reads_compressed {v : Nat} {bs : List UInt8} (h : Hotswap.compressed v = .ok bs) :
    compressed.Reads bs v := by
  simp only [Hotswap.compressed] at h
  split at h
  · next h₁ =>
    cases h
    apply (reads_byte _).bind_nil
    have hb : (UInt8.ofNat v).toNat = v := UInt8.toNat_ofNat_of_lt' (by simp [UInt8.size]; omega)
    rw [if_pos (by omega), hb]
    exact reads_pure _
  · next h₁ =>
    split at h
    · next h₂ =>
      cases h
      refine (reads_byte _).bind (?_ : Reads _ [_] _)
      have hb : (UInt8.ofNat (0x80 + v / 0x100)).toNat = 0x80 + v / 0x100 :=
        UInt8.toNat_ofNat_of_lt' (by simp [UInt8.size]; omega)
      have hlow : (UInt8.ofNat v).toNat = v % 0x100 := UInt8.toNat_ofNat'
      rw [hb, if_neg (by omega), if_pos (by omega)]
      apply (reads_byte _).bind_nil
      rw [hlow, show (0x80 + v / 0x100 - 0x80) * 0x100 + v % 0x100 = v by omega]
      exact reads_pure _
    · next h₂ =>
      split at h
      · next h₃ =>
        cases h
        simp only [maxCompressed] at h₃
        refine (reads_byte _).bind (?_ : Reads _ [_, _, _] _)
        have hb : (UInt8.ofNat (0xC0 + v / 0x1000000)).toNat = 0xC0 + v / 0x1000000 :=
          UInt8.toNat_ofNat_of_lt' (by simp [UInt8.size]; omega)
        have hbyte : ∀ n, (UInt8.ofNat n).toNat = n % 0x100 := fun _ ↦ UInt8.toNat_ofNat'
        rw [hb, if_neg (by omega), if_neg (by omega), if_pos (by omega)]
        refine (reads_byte _).bind (?_ : Reads _ [_, _] _)
        refine (reads_byte _).bind (?_ : Reads _ [_] _)
        apply (reads_byte _).bind_nil
        have hv : (0xC0 + v / 0x1000000 - 0xC0) * 0x1000000 + v / 0x10000 % 0x100 * 0x10000 +
            v / 0x100 % 0x100 * 0x100 + v % 0x100 = v := by omega
        rw [hbyte, hbyte, hbyte, hv]
        exact reads_pure _
      · cases h

theorem failsOnInput_compressed : compressed.FailsOnInput := by
  apply failsOnInput_byte.bind
  intro b
  split
  · exact failsOnInput_pure _
  · split
    · exact failsOnInput_byte.bind fun _ ↦ failsOnInput_pure _
    · split
      · exact failsOnInput_byte.bind fun _ ↦ failsOnInput_byte.bind fun _ ↦
          failsOnInput_byte.bind fun _ ↦ failsOnInput_pure _
      · exact failsOnInput_fail _

/-- A compressed count is read from its form. -/
theorem reads_compressedCount {v : Nat} {bs : List UInt8} (h : compressedCount v = .ok bs) :
    compressed.Reads bs v := by
  simp only [compressedCount] at h
  split at h
  · exact reads_compressed h
  · cases h

/-- A string is read from its counted form. -/
theorem reads_countedString {s : String} {bs : List UInt8} (h : Hotswap.countedString s = .ok bs) :
    countedString.Reads bs s := by
  simp only [Hotswap.countedString] at h
  split at h
  · obtain ⟨front, hfront, rfl⟩ := map_eq_ok.mp h
    apply (reads_compressed hfront).bind
    apply (reads_bytes _).bind_nil
    rw [Text.Utf8.decode_encode]
    exact reads_pure _
  · cases h

theorem failsOnInput_countedString : countedString.FailsOnInput := by
  apply failsOnInput_compressed.bind
  intro length
  apply (failsOnInput_bytes length).bind
  intro octets
  split
  · exact failsOnInput_pure _
  · exact failsOnInput_position.bind fun _ ↦ failsOnInput_fail _

/-- Reading once more is a reader in front of the others. -/
theorem times_succ (read : Reader α) (n : Nat) :
    times read (n + 1) = read >>= fun a ↦ (a :: ·) <$> times read n := by
  show Reader.mk _ = Reader.mk _
  congr 1
  funext c
  exact run_times_succ read n c

/-- Reading several times fails as the reader does. -/
theorem FailsOnInput.times {read : Reader α} (h : read.FailsOnInput) (n : Nat) :
    (times read n).FailsOnInput := by
  induction n with
  | zero =>
    intro c e c' he
    cases he
  | succ n ih =>
    intro c e c' he
    rw [run_times_succ] at he
    exact (h.bind fun a ↦ ih.map _) c e c' he

/-- Reading several times gives values that the reader gives. -/
theorem Yields.times {read : Reader α} {P : α → Prop} (h : read.Yields P) (n : Nat) :
    (times read n).Yields fun as ↦ ∀ a ∈ as, P a := by
  induction n with
  | zero =>
    intro c as c' ha
    cases ha
    simp
  | succ n ih =>
    intro c as c' ha
    rw [run_times_succ] at ha
    have hall : (read >>= fun a ↦ (a :: ·) <$> Reader.times read n).Yields fun as ↦
        ∀ a ∈ as, P a := by
      refine h.bind fun a hp ↦ .map fun d rest d' hrest ↦ ?_
      simpa using ⟨hp, ih d rest d' hrest⟩
    exact hall c as c' ha

theorem failsOnInput_count : count.FailsOnInput := by
  apply failsOnInput_compressed.bind
  intro n
  apply failsOnInput_remaining.bind
  intro left
  split
  · exact failsOnInput_fail _
  · exact failsOnInput_pure _

end Reader

end Hotswap
