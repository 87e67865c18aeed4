import Hotswap.Text.Hex
import Hotswap.Text.Utf8

/-!
# Malformed input

What can be wrong with a descriptor, a type name, a class image or a snippet of code, one
constructor per cause.
-/

namespace Hotswap

/-- Why an input is not what it should be. -/
inductive Malformed where
  /-- A descriptor ends where a type should begin. -/
  | descriptorEnd (descriptor : String)
  /-- A class name in a descriptor has no closing semicolon. -/
  | classNameOpen (descriptor : String)
  /-- A class name in a descriptor is empty, has an empty segment or holds a forbidden mark. -/
  | className (name descriptor : String)
  /-- No type begins with this character. -/
  | typeCharacter (c : Char) (descriptor : String)
  /-- A method descriptor begins with something else than its parameter list. -/
  | noParameterList (descriptor : String)
  /-- The parameter list of a method descriptor has no end. -/
  | parameterListOpen (descriptor : String)
  /-- Characters follow a complete descriptor. -/
  | trailingCharacters (rest descriptor : String)
  /-- A text names no type. -/
  | typeName (name : String)
  /-- No compressed number begins with this byte. -/
  | compressedNumber (first : UInt8)
  /-- A string of an image is not UTF-8. -/
  | utf8 (start stop : Nat) (fault : Text.Utf8.Fault)
  /-- A truth value is neither zero nor one. -/
  | boolean (byte : UInt8) (offset : Nat)
  /-- A number has no compressed form. -/
  | tooLargeToCompress (value : Nat)
  /-- A count does not fit in 32 bits. -/
  | countTooLarge (value : Nat)
  /-- The length of a string does not fit in 32 bits. -/
  | stringTooLong (length : Nat)
  /-- An image does not begin with the mark of class images. -/
  | magic (found : UInt32)
  /-- An image is of another version of the format. -/
  | version (found : UInt16)
  /-- A class has a flag that means nothing. -/
  | classFlags (found : UInt16)
  /-- A member has a flag that means nothing. -/
  | memberFlags (found : UInt16)
  /-- A count is larger than the number of bytes left. -/
  | implausibleCount (count remaining : Nat)
  /-- The number of locals does not fit in 16 bits. -/
  | localsOutOfRange (value : Nat)
  /-- The stack size does not fit in 16 bits. -/
  | stackOutOfRange (value : Nat)
  /-- No instruction begins with this byte. -/
  | opcode (byte : UInt8) (offset : Nat)
  /-- Bytes follow a complete image. -/
  | trailingBytes (count : Nat) (className : String)
  /-- The image found under one class name declares another class. -/
  | misplacedImage (sought declared : String)
  /-- A branch of a snippet leads out of the snippet and not to its end. -/
  | snippetBranch (index : Nat) (target : UInt32) (length : Nat)
  /-- Every local slot is taken, and none is left for the returned value. -/
  | noSpillSlot
  /-- A branch of a body leads out of the body. -/
  | branchPastEnd (index : Nat) (target : UInt32)
  /-- The number of instructions of a body does not fit in 32 bits. -/
  | bodyTooLong (length : Nat)
  deriving DecidableEq, Repr

/-- The wording of a cause. -/
def Malformed.message : Malformed → String
  | descriptorEnd d => s!"Unexpected end of descriptor '{d}'"
  | classNameOpen d => s!"Unterminated class name in descriptor '{d}'"
  | className n d => s!"Invalid class name '{n}' in descriptor '{d}'"
  | typeCharacter c d => s!"Invalid type character '{c}' in descriptor '{d}'"
  | noParameterList d => s!"Method descriptor '{d}' does not start with '('"
  | parameterListOpen d => s!"Unterminated parameter list in '{d}'"
  | trailingCharacters rest d => s!"Trailing characters '{rest}' in descriptor '{d}'"
  | typeName n => s!"Invalid parameter type name '{n}'"
  | compressedNumber b => s!"Invalid compressed uint - {b}"
  | utf8 start stop fault =>
    s!"Invalid UTF-8 string at offset {start}-{stop}: " ++ fault.message
  | boolean b offset => s!"Invalid boolean byte {b} at offset {offset}"
  | tooLargeToCompress v => s!"Value {v} is too large for a compressed uint"
  | countTooLarge v => s!"Count {v} is too large"
  | stringTooLong n => s!"String of {n} bytes is too long"
  | magic m => "Invalid class image magic 0x" ++ Text.upperHex 8 m.toNat
  | version v => s!"Unsupported class image version {v}"
  | classFlags f => "Invalid class flags 0x" ++ Text.upperHex 4 f.toNat
  | memberFlags f => "Invalid member flags 0x" ++ Text.upperHex 4 f.toNat
  | implausibleCount c r => s!"Count {c} exceeds remaining {r} bytes"
  | localsOutOfRange v => s!"max_locals {v} out of range"
  | stackOutOfRange v => s!"max_stack {v} out of range"
  | opcode b offset => "Unknown opcode 0x" ++ Text.upperHex 2 b.toNat ++ s!" at offset {offset}"
  | trailingBytes n c => s!"{n} trailing bytes after class {c}"
  | misplacedImage n d => s!"Classpath image for {n} declares class {d}"
  | snippetBranch i t n => s!"Snippet branch at {i} targets {t} beyond the snippet length {n}"
  | noSpillSlot => "No local slot left to spill the return value"
  | branchPastEnd i t => s!"Branch at {i} targets {t} past the end"
  | bodyTooLong n => s!"Body of {n} instructions is too long"

end Hotswap
