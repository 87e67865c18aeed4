/-!
# UTF-8

Reading octets as text. What is not text is described by the place of the first ill-formed
character and by how many of its octets could still have begun a character.
-/

namespace Hotswap.Text.Utf8

/-- Why octets are not text. `start` counts the octets before the ill-formed character. -/
inductive Fault where
  /-- The octets end inside a character. -/
  | incomplete (start : Nat)
  /-- `length` octets begin a character and the next octet cannot go on with it. -/
  | illFormed (length start : Nat)
  deriving DecidableEq, Repr

/-- The wording of a fault. -/
def Fault.message : Fault → String
  | .incomplete start => s!"incomplete utf-8 byte sequence from index {start}"
  | .illFormed length start => s!"invalid utf-8 sequence of {length} bytes from index {start}"

/-- What a character still owes: how many octets, and the bounds of the next of them. -/
structure Owed where
  count : Nat
  low : UInt8
  high : UInt8
  deriving DecidableEq, Repr

/-- What the first octet of a character makes it owe; nothing for one that begins no character. -/
def Owed.ofFirst? (b : UInt8) : Option Owed :=
  if b < 0x80 then some ⟨0, 0x80, 0xBF⟩
  else if b < 0xC2 then none
  else if b < 0xE0 then some ⟨1, 0x80, 0xBF⟩
  else if b = 0xE0 then some ⟨2, 0xA0, 0xBF⟩
  else if b = 0xED then some ⟨2, 0x80, 0x9F⟩
  else if b < 0xF0 then some ⟨2, 0x80, 0xBF⟩
  else if b = 0xF0 then some ⟨3, 0x90, 0xBF⟩
  else if b < 0xF4 then some ⟨3, 0x80, 0xBF⟩
  else if b = 0xF4 then some ⟨3, 0x80, 0x8F⟩
  else none

/-- Looks for the first fault. `start` counts the octets before the current character, of which
`taken` octets have been read and `owed` says what it still needs. -/
def findFault (start taken : Nat) (owed : Owed) : List UInt8 → Option Fault
  | [] => if taken = 0 then none else some (.incomplete start)
  | b :: rest =>
    if taken = 0 then
      match Owed.ofFirst? b with
      | none => some (.illFormed 1 start)
      | some o =>
        if o.count = 0 then findFault (start + 1) 0 o rest else findFault start 1 o rest
    else if owed.low ≤ b ∧ b ≤ owed.high then
      if owed.count = 1 then findFault (start + taken + 1) 0 owed rest
      else findFault start (taken + 1) ⟨owed.count - 1, 0x80, 0xBF⟩ rest
    else some (.illFormed taken start)

/-- The first fault of a run of octets. -/
def fault? (octets : List UInt8) : Option Fault := findFault 0 0 ⟨0, 0x80, 0xBF⟩ octets

/-- The octets of a text. -/
def encode (s : String) : List UInt8 := s.toUTF8.data.toList

/-- Reads octets as text. -/
def decode (octets : List UInt8) : Except Fault String :=
  match String.fromUTF8? ⟨octets.toArray⟩ with
  | some s => .ok s
  | none => .error ((fault? octets).getD (.incomplete 0))

/-- Reading the octets of a text gives the text. -/
theorem decode_encode (s : String) : decode (encode s) = .ok s := by
  have h : String.fromUTF8? ⟨s.toUTF8.data.toList.toArray⟩ = some s := by
    have hv : ByteArray.IsValidUTF8 ⟨s.toUTF8.data.toList.toArray⟩ := by
      simpa using s.isValidUTF8
    rw [String.fromUTF8?, dif_pos hv]
    simp [String.fromUTF8]
  rw [decode, encode, h]

/-- Octets that read as a text are the octets of that text. -/
theorem eq_encode_of_decode {octets : List UInt8} {s : String} (h : decode octets = .ok s) :
    octets = encode s := by
  unfold decode at h
  split at h
  · next t ht =>
    cases h
    unfold String.fromUTF8? at ht
    split at ht
    · cases ht
      simp [encode, String.fromUTF8]
    · cases ht
  · cases h

end Hotswap.Text.Utf8
