import Hotswap.Proofs.Consumption
import Hotswap.Proofs.InPlace

/-!
# Compressed forms in bits and buffers

The first byte of a compressed number begins with the bits `0`, `10` or `110`, which tell how many
bytes there are. The bits of the number follow, most significant first. Writing puts these bytes one
by one behind what a buffer holds; a number that has no form leaves the buffer as it was. The form is
the only one of its length or less that the number is read from, whatever stands behind it, and the
same holds of strings behind the form of their length.
-/

namespace Hotswap

/-! ### Bits of numbers -/

/-- Bits that stand below all others are added to them. -/
theorem or_eq_add_of_dvd {x y k : Nat} (hx : 2 ^ k ∣ x) (hy : y < 2 ^ k) : x ||| y = x + y := by
  obtain ⟨a, rfl⟩ := hx
  exact (Nat.two_pow_add_eq_or_of_lt hy a).symm

/-- Bytes of a number, each below all those in front of it. -/
theorem or_digits {a b c d : Nat} (hb : b < 2 ^ 8) (hc : c < 2 ^ 8) (hd : d < 2 ^ 8) :
    a * 2 ^ 24 ||| b * 2 ^ 16 ||| c * 2 ^ 8 ||| d =
      a * 2 ^ 24 + b * 2 ^ 16 + c * 2 ^ 8 + d := by
  have h₁ : a * 2 ^ 24 ||| b * 2 ^ 16 = a * 2 ^ 24 + b * 2 ^ 16 :=
    or_eq_add_of_dvd (k := 24) (by omega) (by omega)
  have h₂ : a * 2 ^ 24 + b * 2 ^ 16 ||| c * 2 ^ 8 = a * 2 ^ 24 + b * 2 ^ 16 + c * 2 ^ 8 :=
    or_eq_add_of_dvd (k := 16) (by omega) (by omega)
  have h₃ : a * 2 ^ 24 + b * 2 ^ 16 + c * 2 ^ 8 ||| d =
      a * 2 ^ 24 + b * 2 ^ 16 + c * 2 ^ 8 + d :=
    or_eq_add_of_dvd (k := 8) (by omega) hd
  rw [h₁, h₂, h₃]

/-- A mask of `n` ones in front of `k` zeros keeps the digits above `2 ^ k` and below
`2 ^ (k + n)`. -/
theorem and_mask (x k n : Nat) : x &&& (2 ^ n - 1) * 2 ^ k = x / 2 ^ k % 2 ^ n * 2 ^ k := by
  apply Nat.eq_of_testBit_eq
  intro i
  simp only [Nat.testBit_and, Nat.testBit_mul_two_pow, Nat.testBit_two_pow_sub_one,
    Nat.testBit_mod_two_pow, Nat.testBit_div_two_pow]
  by_cases h : k ≤ i
  · rw [Nat.sub_add_cancel h, Bool.and_comm, Bool.and_assoc]
  · simp [h]

/-- A byte begins with given bits just if it lies among the bytes that begin with them. -/
theorem and_mask_eq_iff {b mask tag : UInt8} {k n a : Nat} (hmask : mask.toNat = (2 ^ n - 1) * 2 ^ k)
    (htag : tag.toNat = a * 2 ^ k) (hwidth : k + n = 8) : b &&& mask = tag ↔ b.toNat / 2 ^ k = a := by
  have hlt : b.toNat / 2 ^ k < 2 ^ n := by
    rw [Nat.div_lt_iff_lt_mul (Nat.two_pow_pos k), ← Nat.pow_add, Nat.add_comm, hwidth]
    exact b.toNat_lt
  rw [← UInt8.toNat_inj, UInt8.toNat_and, hmask, htag, and_mask, Nat.mod_eq_of_lt hlt]
  exact Nat.mul_left_inj (Nat.pos_iff_ne_zero.mp (Nat.two_pow_pos k))

/-- A mask of ones behind all other bits keeps the remainder. -/
theorem toNat_toUInt32_and {b : UInt8} {mask : UInt32} {k : Nat} (hmask : mask.toNat = 2 ^ k - 1) :
    (b.toUInt32 &&& mask).toNat = b.toNat % 2 ^ k := by
  rw [UInt32.toNat_and, UInt8.toNat_toUInt32, hmask, Nat.and_two_pow_sub_one_eq_mod]

/-- A byte is shifted to the left within a word without loss. -/
theorem toNat_shiftLeft_of_lt {w k : UInt32} (hw : w.toNat < 2 ^ 8) (hk : k.toNat ≤ 24) :
    (w <<< k).toNat = w.toNat * 2 ^ k.toNat := by
  have hlt : w.toNat * 2 ^ k.toNat < 2 ^ 32 := calc
    w.toNat * 2 ^ k.toNat < 2 ^ 8 * 2 ^ k.toNat := Nat.mul_lt_mul_of_pos_right hw (Nat.two_pow_pos _)
    _ ≤ 2 ^ 8 * 2 ^ 24 := Nat.mul_le_mul_left _ (Nat.pow_le_pow_right (by decide) hk)
  have hbits : k.toNat < 32 := Nat.lt_of_le_of_lt hk (by decide)
  rw [UInt32.toNat_shiftLeft, Nat.mod_eq_of_lt hbits, Nat.shiftLeft_eq, Nat.mod_eq_of_lt hlt]

/-- The lowest byte of a word that is shifted to the right. -/
theorem toUInt8_shiftRight {w k : UInt32} (hk : k.toNat < 32) :
    (w >>> k).toUInt8 = UInt8.ofNat (w.toNat / 2 ^ k.toNat) := by
  apply UInt8.toNat_inj.mp
  rw [UInt32.toNat_toUInt8, UInt32.toNat_shiftRight, Nat.mod_eq_of_lt hk,
    Nat.shiftRight_eq_div_pow, UInt8.toNat_ofNat']

/-- Bits that begin a byte are added to a number that leaves them free. -/
theorem tag_or_ofNat {tag : UInt8} {n k : Nat} (htag : 2 ^ k ∣ tag.toNat) (hn : n < 2 ^ k)
    (hsum : tag.toNat + n < 2 ^ 8) : tag ||| UInt8.ofNat n = UInt8.ofNat (tag.toNat + n) := by
  have hbyte : (UInt8.ofNat n).toNat = n :=
    UInt8.toNat_ofNat_of_lt' (Nat.lt_of_le_of_lt (Nat.le_add_left n _) hsum)
  apply UInt8.toNat_inj.mp
  rw [UInt8.toNat_or, hbyte, or_eq_add_of_dvd htag hn, UInt8.toNat_ofNat_of_lt' hsum]

namespace Reader

/-! ### Reading by bits -/

/-- Reads a compressed number by the bits that its first byte begins with. -/
def tagged : Reader UInt32 := do
  let b₀ ← byte
  if b₀ &&& 0x80 = 0 then pure b₀.toUInt32
  else if b₀ &&& 0xC0 = 0x80 then do
    let b₁ ← byte
    pure ((b₀.toUInt32 &&& 0x3F) <<< 8 ||| b₁.toUInt32)
  else if b₀ &&& 0xE0 = 0xC0 then do
    let b₁ ← byte
    let b₂ ← byte
    let b₃ ← byte
    pure ((b₀.toUInt32 &&& 0x1F) <<< 24 ||| b₁.toUInt32 <<< 16 ||| b₂.toUInt32 <<< 8 |||
      b₃.toUInt32)
  else fail (.compressedNumber b₀)

/-- The number of the form in two bytes. -/
theorem toNat_two (b₀ b₁ : UInt8) :
    ((b₀.toUInt32 &&& 0x3F) <<< 8 ||| b₁.toUInt32).toNat = b₀.toNat % 2 ^ 6 * 2 ^ 8 + b₁.toNat := by
  have hpayload : (b₀.toUInt32 &&& 0x3F).toNat = b₀.toNat % 2 ^ 6 := toNat_toUInt32_and rfl
  have hhigh : ((b₀.toUInt32 &&& 0x3F) <<< 8).toNat = b₀.toNat % 2 ^ 6 * 2 ^ 8 := by
    rw [← hpayload]
    exact toNat_shiftLeft_of_lt (by omega) (by decide)
  rw [UInt32.toNat_or, hhigh, UInt8.toNat_toUInt32]
  exact or_eq_add_of_dvd (Nat.dvd_mul_left _ _) b₁.toNat_lt

/-- The number of the form in four bytes. -/
theorem toNat_four (b₀ b₁ b₂ b₃ : UInt8) :
    ((b₀.toUInt32 &&& 0x1F) <<< 24 ||| b₁.toUInt32 <<< 16 ||| b₂.toUInt32 <<< 8 |||
      b₃.toUInt32).toNat =
      b₀.toNat % 2 ^ 5 * 2 ^ 24 + b₁.toNat * 2 ^ 16 + b₂.toNat * 2 ^ 8 + b₃.toNat := by
  have hpayload : (b₀.toUInt32 &&& 0x1F).toNat = b₀.toNat % 2 ^ 5 := toNat_toUInt32_and rfl
  have h₀ : ((b₀.toUInt32 &&& 0x1F) <<< 24).toNat = b₀.toNat % 2 ^ 5 * 2 ^ 24 := by
    rw [← hpayload]
    exact toNat_shiftLeft_of_lt (by omega) (by decide)
  have h₁ : (b₁.toUInt32 <<< 16).toNat = b₁.toNat * 2 ^ 16 := by
    rw [← UInt8.toNat_toUInt32 b₁]
    exact toNat_shiftLeft_of_lt b₁.toNat_lt (by decide)
  have h₂ : (b₂.toUInt32 <<< 8).toNat = b₂.toNat * 2 ^ 8 := by
    rw [← UInt8.toNat_toUInt32 b₂]
    exact toNat_shiftLeft_of_lt b₂.toNat_lt (by decide)
  rw [UInt32.toNat_or, UInt32.toNat_or, UInt32.toNat_or, h₀, h₁, h₂, UInt8.toNat_toUInt32]
  exact or_digits b₁.toNat_lt b₂.toNat_lt b₃.toNat_lt

/-- The bits say what the number says: both readers do the same on any input. -/
theorem compressed_eq_map_tagged : compressed = UInt32.toNat <$> tagged := by
  have hone : ∀ b : UInt8, b &&& 0x80 = 0 ↔ b.toNat / 2 ^ 7 = 0 :=
    fun _ ↦ and_mask_eq_iff (n := 1) rfl rfl rfl
  have htwo : ∀ b : UInt8, b &&& 0xC0 = 0x80 ↔ b.toNat / 2 ^ 6 = 2 :=
    fun _ ↦ and_mask_eq_iff (n := 2) rfl rfl rfl
  have hfour : ∀ b : UInt8, b &&& 0xE0 = 0xC0 ↔ b.toNat / 2 ^ 5 = 6 :=
    fun _ ↦ and_mask_eq_iff (n := 3) rfl rfl rfl
  rw [tagged, map_bind]
  refine congrArg (byte >>= ·) (funext fun b₀ ↦ ?_)
  simp only [hone, htwo, hfour, apply_ite (UInt32.toNat <$> ·), map_bind]
  have hlt := b₀.toNat_lt
  by_cases h : b₀.toNat < 0x80
  · have htag : b₀.toNat / 2 ^ 7 = 0 := by omega
    rw [if_pos h, if_pos htag]
    show pure _ = pure _
    rw [UInt8.toNat_toUInt32]
  · have htag : b₀.toNat / 2 ^ 7 ≠ 0 := by omega
    rw [if_neg h, if_neg htag]
    by_cases h' : b₀.toNat < 0xC0
    · have htag' : b₀.toNat / 2 ^ 6 = 2 := by omega
      rw [if_pos h', if_pos htag']
      refine congrArg (byte >>= ·) (funext fun b₁ ↦ ?_)
      have hnumber : (b₀.toNat - 0x80) * 0x100 + b₁.toNat =
          b₀.toNat % 2 ^ 6 * 2 ^ 8 + b₁.toNat := by omega
      show pure _ = pure _
      rw [hnumber, toNat_two]
    · have htag' : b₀.toNat / 2 ^ 6 ≠ 2 := by omega
      rw [if_neg h', if_neg htag']
      by_cases h'' : b₀.toNat < 0xE0
      · have htag'' : b₀.toNat / 2 ^ 5 = 6 := by omega
        rw [if_pos h'', if_pos htag'']
        refine congrArg (byte >>= ·) (funext fun b₁ ↦ ?_)
        refine congrArg (byte >>= ·) (funext fun b₂ ↦ ?_)
        refine congrArg (byte >>= ·) (funext fun b₃ ↦ ?_)
        have hnumber : (b₀.toNat - 0xC0) * 0x1000000 + b₁.toNat * 0x10000 + b₂.toNat * 0x100 +
            b₃.toNat = b₀.toNat % 2 ^ 5 * 2 ^ 24 + b₁.toNat * 2 ^ 16 + b₂.toNat * 2 ^ 8 +
            b₃.toNat := by omega
        show pure _ = pure _
        rw [hnumber, toNat_four]
      · have htag'' : b₀.toNat / 2 ^ 5 ≠ 6 := by omega
        rw [if_neg h'', if_neg htag'']
        rfl

end Reader

/-! ### Writing into a buffer -/

/-- Puts a byte behind what a buffer holds. -/
def pushByte (b : UInt8) : InPlace Error (List UInt8) Unit := .store fun out ↦ ((), out ++ [b])

/-- Writes the compressed form of a number byte by byte. -/
def writeCompressed (v : UInt32) : InPlace Error (List UInt8) Unit :=
  if v < 0x80 then pushByte v.toUInt8
  else if v < 0x4000 then do
    pushByte ((0x80 : UInt8) ||| (v >>> 8).toUInt8)
    pushByte v.toUInt8
  else if v ≤ 0x1FFFFFFF then do
    pushByte ((0xC0 : UInt8) ||| (v >>> 24).toUInt8)
    pushByte (v >>> 16).toUInt8
    pushByte (v >>> 8).toUInt8
    pushByte v.toUInt8
  else throw (.malformed (.tooLargeToCompress v.toNat))

/-- Writes the number of the octets of a string and then the octets. -/
def writeCounted (s : String) : InPlace Error (List UInt8) Unit := do
  let octets := Text.Utf8.encode s
  .refuse (fun _ ↦ UInt32.size ≤ octets.length) fun _ ↦ .malformed (.stringTooLong octets.length)
  writeCompressed (UInt32.ofNat octets.length)
  .store fun out ↦ ((), out ++ octets)

@[simp] theorem exec_pushByte_bind (b : UInt8) (p : Unit → InPlace Error (List UInt8) Unit)
    (out : List UInt8) : (pushByte b >>= p).exec out = (p ()).exec (out ++ [b]) :=
  InPlace.exec_store_bind _ _ _

@[simp] theorem exec_pushByte (b : UInt8) (out : List UInt8) :
    (pushByte b).exec out = (.ok (), out ++ [b]) := rfl

/-- A number is written as its compressed form, or nothing is written. -/
theorem exec_writeCompressed (v : UInt32) (out : List UInt8) :
    (writeCompressed v).exec out = InPlace.replace out ((out ++ ·) <$> compressed v.toNat) := by
  have h₀ : v.toUInt8 = UInt8.ofNat v.toNat := rfl
  have h₈ : (v >>> 8).toUInt8 = UInt8.ofNat (v.toNat / 0x100) := toUInt8_shiftRight (by decide)
  have h₁₆ : (v >>> 16).toUInt8 = UInt8.ofNat (v.toNat / 0x10000) := toUInt8_shiftRight (by decide)
  have h₂₄ : (v >>> 24).toUInt8 = UInt8.ofNat (v.toNat / 0x1000000) :=
    toUInt8_shiftRight (by decide)
  rw [writeCompressed, h₀, h₈, h₁₆, h₂₄]
  by_cases hone : v.toNat < 0x80
  · rw [if_pos (UInt32.lt_iff_toNat_lt.mpr hone), compressed_one hone]
    rfl
  · rw [if_neg (mt UInt32.lt_iff_toNat_lt.mp hone)]
    by_cases htwo : v.toNat < 0x4000
    · have htag : 0x80 ||| UInt8.ofNat (v.toNat / 0x100) = UInt8.ofNat (0x80 + v.toNat / 0x100) :=
        tag_or_ofNat (k := 6) (by decide) (by omega) (by show 0x80 + _ < _; omega)
      rw [if_pos (UInt32.lt_iff_toNat_lt.mpr htwo), compressed_two hone htwo, htag]
      simp only [exec_pushByte_bind, exec_pushByte, List.append_assoc]
      rfl
    · rw [if_neg (mt UInt32.lt_iff_toNat_lt.mp htwo)]
      by_cases hfour : v.toNat ≤ maxCompressed
      · have hlt : v.toNat / 0x1000000 < 2 ^ 5 := by
          simp only [maxCompressed] at hfour
          omega
        have htag : 0xC0 ||| UInt8.ofNat (v.toNat / 0x1000000) =
            UInt8.ofNat (0xC0 + v.toNat / 0x1000000) :=
          tag_or_ofNat (k := 5) (by decide) hlt (by show 0xC0 + _ < _; omega)
        rw [if_pos (UInt32.le_iff_toNat_le.mpr hfour), compressed_four htwo hfour, htag]
        simp only [exec_pushByte_bind, exec_pushByte, List.append_assoc]
        rfl
      · rw [if_neg (mt UInt32.le_iff_toNat_le.mp hfour), compressed_of_lt (Nat.lt_of_not_le hfour)]
        rfl

/-- A string is written as its counted form, or nothing is written. -/
theorem exec_writeCounted (s : String) (out : List UInt8) :
    (writeCounted s).exec out = InPlace.replace out ((out ++ ·) <$> countedString s) := by
  rw [writeCounted, countedString, InPlace.refuse, InPlace.exec_ask_bind]
  generalize Text.Utf8.encode s = octets
  by_cases h : octets.length < UInt32.size
  · have hlength : (UInt32.ofNat octets.length).toNat = octets.length :=
      UInt32.toNat_ofNat_of_lt' h
    simp only [decide_eq_true_eq, Nat.not_le_of_lt h, if_false, if_pos h]
    rw [InPlace.exec_bind, exec_writeCompressed, hlength]
    -- Only the number can fail, and it is in front of the octets.
    cases compressed octets.length with
    | ok front =>
      show (Except.ok (), (out ++ front) ++ octets) = (.ok (), out ++ (front ++ octets))
      rw [List.append_assoc]
    | error e => rfl
  · simp only [decide_eq_true_eq, Nat.le_of_not_lt h, if_true, if_neg h]
    rfl

/-! ### Values carried by a buffer -/

/-- What writing a value into a buffer and reading it back come to. Only what fits is written; what
does not leaves the buffer as it was. What is written is the form of the value behind what the
buffer held. In front of any bytes the form is read as the value, and then only those bytes are
left; whatever else the value is read from is longer than the form. -/
structure Carries {α : Type} (form? : Except Error (List UInt8))
    (write : InPlace Error (List UInt8) Unit) (read : Reader α) (a : α) (fits : Prop)
    (cause : Malformed) : Prop where
  succeeds_iff : ∀ out, (write.exec out).1 = .ok () ↔ fits
  refused : ¬fits → form? = .error (.malformed cause) ∧
    ∀ out, write.exec out = (.error (.malformed cause), out)
  written : fits → ∃ form, form? = .ok form ∧ (∀ out, write.exec out = (.ok (), out ++ form)) ∧
    (∀ rest pos, read.run ⟨form ++ rest, pos⟩ = (.ok a, ⟨rest, pos + form.length⟩)) ∧
    ∀ c c', read.run c = (.ok a, c') → ∃ used, c.rest = used ++ c'.rest ∧
      form.length ≤ used.length ∧ (form = used ↔ form.length = used.length)

variable {α : Type} {form? : α → Except Error (List UInt8)}
  {write : InPlace Error (List UInt8) Unit} {read : Reader α} {a : α} {fits : Prop}
  {cause : Malformed}

/-- A value is carried if writing comes to its form, there is a form just if the value fits, and
reading restores forms. -/
theorem carries_of_restores
    (hwrite : ∀ out, write.exec out = InPlace.replace out ((out ++ ·) <$> form? a))
    (hfits : fits → ∃ form, form? a = .ok form)
    (hrefused : ¬fits → form? a = .error (.malformed cause))
    (hreads : ∀ {form}, form? a = .ok form → read.Reads form a)
    (hrestores : read.Restores fun a form ↦ form? a = .ok form) :
    Carries (form? a) write read a fits cause := by
  have hnot : ¬fits → ∀ out, write.exec out = (.error (.malformed cause), out) := by
    intro h out
    rw [hwrite, hrefused h]
    rfl
  have hsome : ∀ {form}, form? a = .ok form → ∀ out, write.exec out = (.ok (), out ++ form) := by
    intro form h out
    rw [hwrite, h]
    rfl
  refine ⟨fun out ↦ ⟨fun h ↦ ?_, fun h ↦ ?_⟩, fun h ↦ ⟨hrefused h, hnot h⟩, fun h ↦ ?_⟩
  · by_contra hlarge
    rw [hnot hlarge] at h
    cases h
  · obtain ⟨form, hform⟩ := hfits h
    rw [hsome hform]
  · obtain ⟨form, hform⟩ := hfits h
    refine ⟨form, hform, hsome hform, hreads hform, fun c c' hrun ↦ ?_⟩
    obtain ⟨used, hrest, form', hform', hshort⟩ := hrestores c a c' hrun
    obtain rfl : form' = form := Except.ok.inj (hform'.symm.trans hform)
    exact ⟨used, hrest, hshort.length_le, hshort.eq_iff_length_eq⟩

/-- A string has a counted form if its length has a compressed one. -/
theorem exists_countedString {s : String} (h : s.utf8ByteSize ≤ maxCompressed) :
    ∃ form, countedString s = .ok form := by
  obtain ⟨front, hfront⟩ := exists_compressed h
  refine ⟨front ++ Text.Utf8.encode s, ?_⟩
  have hlength : (Text.Utf8.encode s).length = s.utf8ByteSize := rfl
  rw [countedString, hlength, if_pos (lt_size_of_compressed hfront), hfront]
  rfl

/-- A string that is too long has no counted form. -/
theorem countedString_of_lt {s : String} (h : maxCompressed < s.utf8ByteSize) :
    countedString s = .error (.malformed (if s.utf8ByteSize < UInt32.size then
      .tooLargeToCompress s.utf8ByteSize else .stringTooLong s.utf8ByteSize)) := by
  have hlength : (Text.Utf8.encode s).length = s.utf8ByteSize := rfl
  rw [countedString, hlength]
  by_cases hsize : s.utf8ByteSize < UInt32.size
  · rw [if_pos hsize, if_pos hsize, compressed_of_lt h]
    rfl
  · rw [if_neg hsize, if_neg hsize]

/-- A buffer carries the numbers up to `0x1FFFFFFF` and the strings of so many octets, and nothing
else is written to it at all. A value is read from what was written for it, whatever stands behind
that, and from no other bytes that are not longer. The bits of the bytes say the same as the number
that is read. -/
theorem buffer_carries_forms (v : UInt32) (s : String) :
    Reader.compressed = UInt32.toNat <$> Reader.tagged ∧
    Carries (compressed v.toNat) (writeCompressed v) Reader.compressed v.toNat (v ≤ 0x1FFFFFFF)
      (.tooLargeToCompress v.toNat) ∧
    Carries (countedString s) (writeCounted s) Reader.countedString s
      (s.utf8ByteSize ≤ 0x1FFFFFFF) (if s.utf8ByteSize < 2 ^ 32 then
        .tooLargeToCompress s.utf8ByteSize else .stringTooLong s.utf8ByteSize) := by
  refine ⟨Reader.compressed_eq_map_tagged, ?_, ?_⟩
  · have hfits : v ≤ 0x1FFFFFFF ↔ v.toNat ≤ maxCompressed := UInt32.le_iff_toNat_le
    exact carries_of_restores (exec_writeCompressed v) (fun h ↦ exists_compressed (hfits.mp h))
      (fun h ↦ compressed_of_lt (Nat.lt_of_not_le (mt hfits.mpr h))) Reader.reads_compressed
      Reader.restores_compressed
  · exact carries_of_restores (exec_writeCounted s) exists_countedString
      (fun h ↦ countedString_of_lt (Nat.lt_of_not_le h)) Reader.reads_countedString
      Reader.restores_countedString

/-- The least number of four bytes is carried, the least one without a form is not, and a string is
carried behind the form of its length. -/
theorem buffer_carries_least_of_four :
    (0x4000 : UInt32) ≤ 0x1FFFFFFF ∧ ¬(0x20000000 : UInt32) ≤ 0x1FFFFFFF ∧
    "k.P".utf8ByteSize ≤ 0x1FFFFFFF ∧
    (∀ out, (writeCompressed 0x4000).exec out = (.ok (), out ++ [0xC0, 0, 0x40, 0])) ∧
    (∀ rest pos, Reader.compressed.run ⟨[0xC0, 0, 0x40, 0] ++ rest, pos⟩ =
      (.ok 0x4000, ⟨rest, pos + 4⟩)) ∧
    (∀ out, (writeCompressed 0x20000000).exec out =
      (.error (.malformed (.tooLargeToCompress 0x20000000)), out)) ∧
    (∀ out, (writeCounted "k.P").exec out = (.ok (), out ++ [3, 107, 46, 80])) ∧
    ∀ rest pos, Reader.countedString.run ⟨[3, 107, 46, 80] ++ rest, pos⟩ =
      (.ok "k.P", ⟨rest, pos + 4⟩) := by
  have hleast : (0x4000 : UInt32) ≤ 0x1FFFFFFF := by decide
  have hlarge : ¬(0x20000000 : UInt32) ≤ 0x1FFFFFFF := by decide
  have hshort : "k.P".utf8ByteSize ≤ 0x1FFFFFFF := by decide
  have hfour : compressed (0x4000 : UInt32).toNat = .ok [0xC0, 0, 0x40, 0] := by rfl
  have hcounted : countedString "k.P" = .ok [3, 107, 46, 80] := by rfl
  obtain ⟨-, hnumber, hstring⟩ := buffer_carries_forms 0x4000 "k.P"
  obtain ⟨-, hnone, -⟩ := buffer_carries_forms 0x20000000 "k.P"
  obtain ⟨form, hform, hwrite, hread, -⟩ := hnumber.written hleast
  obtain rfl : [0xC0, 0, 0x40, 0] = form := Except.ok.inj (hfour.symm.trans hform)
  obtain ⟨form, hform, hwrite', hread', -⟩ := hstring.written hshort
  obtain rfl : [3, 107, 46, 80] = form := Except.ok.inj (hcounted.symm.trans hform)
  exact ⟨hleast, hlarge, hshort, hwrite, hread, (hnone.refused hlarge).2, hwrite', hread'⟩

/-- A number is also read from more bytes than are written for it. -/
example : Reader.tagged.run ⟨[0x80, 0x7F, 9], 0⟩ = (.ok 0x7F, ⟨[9], 2⟩) := by decide

end Hotswap
