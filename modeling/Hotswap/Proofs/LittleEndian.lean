import Mathlib.Algebra.Ring.Nat
import Hotswap.Binary.Number

/-!
# Little-endian digits

The bytes of a number stand for it up to a multiple of the next power, and no bytes stand for more.
-/

namespace Hotswap

/-- The lowest bytes of a number stand for its remainder. -/
theorem ofLittleEndian_littleEndian (n v : Nat) :
    ofLittleEndian (littleEndian n v) = v % 256 ^ n := by
  induction n generalizing v with
  | zero => simp [littleEndian, ofLittleEndian, Nat.mod_one]
  | succ n ih =>
    have h : (UInt8.ofNat v).toNat = v % 256 := UInt8.toNat_ofNat'
    rw [littleEndian, ofLittleEndian, ih, h, Nat.pow_succ', Nat.mod_mul]

/-- Bytes stand for a number below the next power. -/
theorem ofLittleEndian_lt (bs : List UInt8) : ofLittleEndian bs < 256 ^ bs.length := by
  induction bs with
  | nil => simp [ofLittleEndian]
  | cons b bs ih =>
    have := b.toNat_lt
    simp only [ofLittleEndian, List.length_cons, Nat.pow_succ]
    omega

end Hotswap
