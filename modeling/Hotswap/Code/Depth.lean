import Hotswap.Code.Body
import Hotswap.Code.Listing
import Hotswap.Error.Unverifiable

/-!
# Stack depths

Every instruction that execution can reach must be reached with one depth of the operand stack,
whatever the path. The walk starts at the first instruction with depth zero, gives each successor
the depth behind the instruction and refuses a second depth. Its result is the greatest depth.
-/

namespace Hotswap

/-- Checks the operands of one instruction against its method: locals, kind of return, target. -/
def Instruction.checkOperands (i : Instruction) (pc : Nat) (maxLocals : UInt16)
    (returnsValue : Bool) (length : Nat) : Except Unverifiable Unit :=
  let target : Except Unverifiable Unit :=
    match i.target? with
    | some t => if length ≤ t.toNat then .error (.branchTarget pc t) else .ok ()
    | none => .ok ()
  match i with
  | .load index | .store index =>
    if maxLocals ≤ index then .error (.localIndex index pc maxLocals) else target
  | .ret => if returnsValue then .error (.returnWithoutValue pc) else target
  | .retValue => if returnsValue then target else .error (.returnWithValue pc)
  | _ => target

/-- Checks the operands of every instruction, from the index of the first one on. -/
def checkAllOperands (maxLocals : UInt16) (returnsValue : Bool) (length : Nat) :
    Nat → List Instruction → Except Unverifiable Unit
  | _, [] => .ok ()
  | pc, i :: rest =>
    match i.checkOperands pc maxLocals returnsValue length with
    | .ok _ => checkAllOperands maxLocals returnsValue length (pc + 1) rest
    | .error e => .error e

/-- The indices to which control can go from an instruction, the next one first. -/
def Instruction.successors (i : Instruction) (pc length : Nat) : Except Unverifiable (List Nat) :=
  let targets := i.target?.toList.map UInt32.toNat
  if i.fallsThrough then
    if length ≤ pc + 1 then .error (.fallsOff pc) else .ok ((pc + 1) :: targets)
  else .ok targets

/-- How far a walk has come: the depths found, the instructions still to visit and the greatest
depth behind a visited one. -/
structure DepthWalk where
  depths : Array (Option Nat)
  pending : List Nat
  deepest : Nat
  deriving Repr

namespace DepthWalk

/-- A walk over `length` instructions that has only reached the first one. -/
def start (length : Nat) : DepthWalk :=
  ⟨(Array.replicate length none).setIfInBounds 0 (some 0), [0], 0⟩

/-- Lets execution reach an instruction with a depth. -/
def reach (w : DepthWalk) (pc depth : Nat) : Except Unverifiable DepthWalk :=
  match w.depths.getD pc none with
  | none => .ok ⟨w.depths.setIfInBounds pc (some depth), pc :: w.pending, w.deepest⟩
  | some found => if found = depth then .ok w else .error (.inconsistentDepth pc found depth)

/-- Lets execution reach several instructions with one depth, in turn. -/
def reachAll (w : DepthWalk) (depth : Nat) : List Nat → Except Unverifiable DepthWalk
  | [] => .ok w
  | pc :: rest =>
    match w.reach pc depth with
    | .ok w => reachAll w depth rest
    | .error e => .error e

/-- Visits an instruction that has been reached with a depth. -/
def visit (w : DepthWalk) (i : Instruction) (pc depth length : Nat) :
    Except Unverifiable DepthWalk :=
  if depth < i.pops then .error (.underflow pc i.listing i.pops depth)
  else
    let after := depth - i.pops + i.pushes
    match i.successors pc length with
    | .error e => .error e
    | .ok next => { w with deepest := max w.deepest after }.reachAll after next

/-- Visits pending instructions, the one reached last first, until none is pending. Each visit
uses one unit of fuel; an instruction becomes pending at most once, so that as many units as there
are instructions suffice. -/
def run (code : Array Instruction) : Nat → DepthWalk → Except Unverifiable DepthWalk
  | 0, w => .ok w
  | fuel + 1, w =>
    match w.pending with
    | [] => .ok w
    | pc :: pending =>
      match code[pc]?, w.depths.getD pc none with
      | some i, some depth =>
        match { w with pending }.visit i pc depth code.size with
        | .ok w => run code fuel w
        | .error e => .error e
      | _, _ => run code fuel { w with pending }

end DepthWalk

/-- The greatest depth of the operand stack that a body can reach, when it is a body for the given
number of argument slots and the given kind of return. -/
def Body.reachedDepth (b : Body) (slots : Nat) (returnsValue : Bool) :
    Except Unverifiable UInt16 :=
  if b.code.isEmpty then .error .emptyBody
  else if b.maxLocals.toNat < slots then .error (.fewLocals b.maxLocals slots)
  else
    let code := b.code.toArray
    match checkAllOperands b.maxLocals returnsValue code.size 0 b.code with
    | .error e => .error e
    | .ok _ =>
      match DepthWalk.run code code.size (.start code.size) with
      | .error e => .error e
      | .ok w =>
        if w.deepest < UInt16.size then .ok (UInt16.ofNat w.deepest)
        else .error (.tooDeep w.deepest)

end Hotswap
