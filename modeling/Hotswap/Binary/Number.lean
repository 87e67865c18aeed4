import Hotswap.Binary.Reader

/-!
# Numbers of fixed width

The bytes of a number stand least significant first.
-/

namespace Hotswap

/-- The `n` lowest bytes of a number. -/
def littleEndian : Nat → Nat → List UInt8
  | 0, _ => []
  | n + 1, v => UInt8.ofNat v :: littleEndian n (v / 256)

/-- The number that bytes stand for. -/
def ofLittleEndian : List UInt8 → Nat
  | [] => 0
  | b :: bs => b.toNat + 256 * ofLittleEndian bs

/-- A number has as many bytes as asked for. -/
theorem length_littleEndian (n v : Nat) : (littleEndian n v).length = n := by
  induction n generalizing v with
  | zero => rfl
  | succ n ih => simp [littleEndian, ih]

/-- Bytes are the lowest bytes of the number that they stand for. -/
theorem littleEndian_ofLittleEndian (bs : List UInt8) :
    littleEndian bs.length (ofLittleEndian bs) = bs := by
  induction bs with
  | nil => rfl
  | cons b bs ih =>
    have hb := b.toNat_lt
    have h₁ : (b.toNat + 256 * ofLittleEndian bs) / 256 = ofLittleEndian bs := by omega
    simp only [List.length_cons, littleEndian, ofLittleEndian, h₁, ih]
    congr 1
    apply UInt8.toNat_inj.1
    simp only [UInt8.toNat_ofNat']
    omega

namespace Reader

/-- Reads a number of `n` bytes. -/
def number (n : Nat) : Reader Nat := ofLittleEndian <$> bytes n

/-- Reads a word of 16 bits. -/
def word16 : Reader UInt16 := UInt16.ofNat <$> number 2

/-- Reads a word of 32 bits. -/
def word32 : Reader UInt32 := UInt32.ofNat <$> number 4

/-- Reads a word of 64 bits. -/
def word64 : Reader UInt64 := UInt64.ofNat <$> number 8

/-- Reads a byte that must be zero or one. -/
def boolean : Reader Bool := do
  let b ← byte
  if b = 0 then pure false
  else if b = 1 then pure true
  else do
    let pos ← position
    fail (.boolean b (pos - 1))

end Reader

/-- The bytes of a word of 16 bits. -/
def word16Bytes (w : UInt16) : List UInt8 := littleEndian 2 w.toNat

/-- The bytes of a word of 32 bits. -/
def word32Bytes (w : UInt32) : List UInt8 := littleEndian 4 w.toNat

/-- The bytes of a word of 64 bits. -/
def word64Bytes (w : UInt64) : List UInt8 := littleEndian 8 w.toNat

/-- The byte of a truth value. -/
def booleanByte (b : Bool) : UInt8 := if b then 1 else 0

/-- Reads `width` bytes at an offset into an input; gives the number and the offset behind it. -/
def numberAt (input : List UInt8) (offset width : Nat) : Except Error (Nat × Nat) :=
  if offset + width ≤ input.length then
    .ok (ofLittleEndian ((input.drop offset).take width), offset + width)
  else .error .outOfBounds

end Hotswap
