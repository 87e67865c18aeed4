import Hotswap.Binary.Number

/-!
# Compressed numbers and counted strings

A number below `0x80` takes one byte, one below `0x4000` two and one up to `0x1FFFFFFF` four, most
significant first; the top bits of the first byte tell the three forms apart. A string stands
behind the compressed number of its octets.
-/

namespace Hotswap

/-- The greatest number that has a compressed form. -/
def maxCompressed : Nat := 0x1FFFFFFF

/-- The compressed form of a number. -/
def compressed (v : Nat) : Except Error (List UInt8) :=
  if v < 0x80 then .ok [UInt8.ofNat v]
  else if v < 0x4000 then .ok [UInt8.ofNat (0x80 + v / 0x100), UInt8.ofNat v]
  else if v ≤ maxCompressed then
    .ok [UInt8.ofNat (0xC0 + v / 0x1000000), UInt8.ofNat (v / 0x10000), UInt8.ofNat (v / 0x100),
      UInt8.ofNat v]
  else .error (.malformed (.tooLargeToCompress v))

/-- The compressed form of a count of any size. -/
def compressedCount (v : Nat) : Except Error (List UInt8) :=
  if v < UInt32.size then compressed v else .error (.malformed (.countTooLarge v))

/-- The counted form of a string. -/
def countedString (s : String) : Except Error (List UInt8) :=
  let octets := Text.Utf8.encode s
  if octets.length < UInt32.size then (· ++ octets) <$> compressed octets.length
  else .error (.malformed (.stringTooLong octets.length))

namespace Reader

/-- Reads a compressed number. -/
def compressed : Reader Nat := do
  let b₀ ← byte
  if b₀.toNat < 0x80 then pure b₀.toNat
  else if b₀.toNat < 0xC0 then do
    let b₁ ← byte
    pure ((b₀.toNat - 0x80) * 0x100 + b₁.toNat)
  else if b₀.toNat < 0xE0 then do
    let b₁ ← byte
    let b₂ ← byte
    let b₃ ← byte
    pure ((b₀.toNat - 0xC0) * 0x1000000 + b₁.toNat * 0x10000 + b₂.toNat * 0x100 + b₃.toNat)
  else fail (.compressedNumber b₀)

/-- Reads a counted string. -/
def countedString : Reader String := do
  let length ← compressed
  let octets ← bytes length
  match Text.Utf8.decode octets with
  | .ok s => pure s
  | .error fault => do
    let pos ← position
    fail (.utf8 (pos - length) pos fault)

/-- Reads a compressed count of entries; each entry takes at least one byte. -/
def count : Reader Nat := do
  let n ← compressed
  let left ← remaining
  if left < n then fail (.implausibleCount n left) else pure n

end Reader

end Hotswap
