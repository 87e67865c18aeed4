import Hotswap.Code.Body
import Hotswap.Error.Basic

/-!
# Weaving snippets into bodies

The branches of a snippet count from its own first instruction, and one to its length leads to what
follows the snippet. A snippet is woven in before the whole code of a body or before each of its
returns; all branches are moved to where the instructions that they named now begin.
-/

namespace Hotswap

/-- Code with all its branches moved by a distance. -/
def relocate (distance : Nat) (code : List Instruction) : List Instruction :=
  code.map (Instruction.mapTarget (· + UInt32.ofNat distance))

/-- Checks that the branches of a snippet lead into the snippet or to its end. -/
def checkBranches (snippet : List Instruction) : Except Error Unit :=
  snippet.zipIdx.forM fun (i, index) ↦
    match i.target? with
    | some t =>
      if snippet.length < t.toNat then
        .error (.malformed (.snippetBranch index t snippet.length))
      else .ok ()
    | none => .ok ()

/-- Checks that an index, or a number of instructions, fits in 32 bits. -/
def checkLength (length : Nat) : Except Error Unit :=
  if length < UInt32.size then .ok () else .error (.malformed (.bodyTooLong length))

/-- The number of instructions that stand for an instruction once a snippet of some length runs
before each return. -/
def Instruction.expandedLength (snippetLength : Nat) : Instruction → Nat
  | ret => snippetLength + 1
  | retValue => snippetLength + 3
  | _ => 1

/-- Where the instructions that stand for each instruction begin, and where the last ones end. -/
def expansionStarts (snippetLength : Nat) (code : List Instruction) : List Nat :=
  code.scanl (fun start i ↦ start + i.expandedLength snippetLength) 0

/-- The instructions that stand for the instruction at an index. The returned value waits in the
local `spill` while the snippet runs. -/
def Instruction.expand (snippet : List Instruction) (spill : UInt16) (starts : Array Nat)
    (index : Nat) (i : Instruction) : Except Error (List Instruction) :=
  let start := starts.getD index 0
  match i with
  | ret => .ok (relocate start snippet ++ [ret])
  | retValue => .ok (store spill :: relocate (start + 1) snippet ++ [load spill, retValue])
  | i =>
    match i.target? with
    | none => .ok [i]
    | some t =>
      if t.toNat + 1 < starts.size then
        .ok [i.mapTarget fun _ ↦ UInt32.ofNat (starts.getD t.toNat 0)]
      else .error (.malformed (.branchPastEnd index t))

namespace Body

/-- Runs a snippet before the code of a body. -/
def insertBefore (b : Body) (snippet : List Instruction) : Except Error Body := do
  checkBranches snippet
  checkLength snippet.length
  checkLength (snippet.length + b.code.length)
  pure { b with code := snippet ++ relocate snippet.length b.code }

/-- Runs a snippet before each return of a body. Code that becomes too long is refused at the first
instruction that would begin too far behind. -/
def insertAfter (b : Body) (snippet : List Instruction) : Except Error Body := do
  checkBranches snippet
  let spills := b.returnsSomewhere
  if spills && b.maxLocals == 0xFFFF then throw (.malformed .noSpillSlot)
  let starts := expansionStarts snippet.length b.code
  starts.forM checkLength
  let starts := starts.toArray
  let parts ← b.code.zipIdx.mapM fun (i, index) ↦ i.expand snippet b.maxLocals starts index
  pure { b with
    code := parts.flatten
    maxLocals := if spills then b.maxLocals + 1 else b.maxLocals }

end Body

end Hotswap
