import Hotswap.Machine.Redefine

/-!
# The redefinition bridge

Redefining live classes needs a capability that is obtained by attaching. The bridge attaches when
a batch first needs it, keeps the capability once attaching has succeeded, and tries again after a
failure.
-/

namespace Hotswap

/-- The capability to redefine live classes: the classes of a batch, or why it is rejected. That a
rejection comes without a machine is what a capability promises: it redefines a batch in one step,
and leaves every class unchanged if it rejects any member of it. -/
abbrev Capability :=
  Machine → List Replacement → Except Error (List ClassId × Machine)

/-- What an attach gives, by the number of attaches before it. -/
abbrev Agent := Nat → Machine → Except Error Capability

/-- The capability of a machine over its own classes. -/
def Machine.capability : Capability := fun m batch ↦ m.redefine batch

/-- Attaches to the machine itself, if it allows that. -/
def Agent.self : Agent := fun _ m ↦
  if m.config.allowSelfAttach then .ok Machine.capability
  else .error (.machine .attachNotPermitted)

/-- A bridge. -/
structure Bridge where
  agent : Agent
  /-- How often the agent was called. -/
  calls : Nat
  capability : Option Capability

namespace Bridge

/-- A bridge that has not attached. -/
def new (agent : Agent) : Bridge := ⟨agent, 0, none⟩

/-- Tells whether the capability was obtained. -/
def isAttached (b : Bridge) : Bool := b.capability.isSome

/-- The capability, obtained now if it was not before. -/
def obtain (b : Bridge) (m : Machine) : Except Error Capability × Bridge :=
  match b.capability with
  | some i => (.ok i, b)
  | none =>
    match b.agent b.calls m with
    | .ok i => (.ok i, { b with calls := b.calls + 1, capability := some i })
    | .error e => (.error (.attach e), { b with calls := b.calls + 1 })

/-- Redefines the classes of a batch. An empty batch needs no capability. -/
def redefine (b : Bridge) (m : Machine) (batch : List Replacement) :
    Except Error (List ClassId) × Bridge × Machine :=
  if batch.isEmpty then (.ok [], b, m)
  else
    match b.obtain m with
    | (.error e, b) => (.error e, b, m)
    | (.ok i, b) =>
      match i m batch with
      | .ok (classes, m) => (.ok classes, b, m)
      | .error e => (.error (.redefinition e), b, m)

end Bridge

end Hotswap
