import Hotswap.Machine.Frame

/-!
# Stacks of waiting calls

The frames that wait while another one runs. Their number stands beside them, so that the limit on
active calls is checked without counting.
-/

namespace Hotswap

/-- The frames of the calls that wait for the running one, the innermost first, with their
number. -/
structure CallStack where
  frames : List Frame
  size : Nat
  size_eq : size = frames.length := by rfl

namespace CallStack

/-- No call waits. -/
def empty : CallStack := ⟨[], 0, rfl⟩

/-- One more call waits. -/
def push (c : CallStack) (f : Frame) : CallStack :=
  ⟨f :: c.frames, c.size + 1, by rw [c.size_eq, List.length_cons]⟩

/-- The innermost waiting call and the others. -/
def pop? (c : CallStack) : Option (Frame × CallStack) :=
  match c with
  | ⟨[], _, _⟩ => none
  | ⟨f :: frames, n, h⟩ =>
    some (f, ⟨frames, n - 1, by rw [h, List.length_cons, Nat.add_sub_cancel]⟩)

/-- What was pushed last is popped first. -/
@[simp] theorem pop?_push (c : CallStack) (f : Frame) : (c.push f).pop? = some (f, c) := by
  cases c
  rfl

end CallStack

end Hotswap
