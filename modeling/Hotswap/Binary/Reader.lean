import Hotswap.Error.Basic

/-!
# Reading bytes

A reader consumes bytes from the front of an input. A read that would go past the end consumes
nothing; what a failing reader consumed before that stays consumed. The equations for `run` say how
each reader moves the cursor, and a composed reader is understood through them alone.
-/

namespace Hotswap

/-- The bytes that have not been read, and how many have been. -/
structure Cursor where
  rest : List UInt8
  pos : Nat
  deriving DecidableEq, Repr

/-- A cursor in front of an input. -/
def Cursor.start (input : List UInt8) : Cursor := ⟨input, 0⟩

/-- A computation that reads from a cursor and leaves a cursor behind, also when it fails. -/
structure Reader (α : Type) where
  run : Cursor → Except Error α × Cursor

/-- The first `n` items and the others, if there are as many. -/
def splitExactly? {α : Type} (n : Nat) (xs : List α) : Option (List α × List α) :=
  let taken := xs.take n
  if taken.length = n then some (taken, xs.drop n) else none

/-- Splitting puts the items in front of the others. -/
theorem splitExactly?_eq_some {α : Type} {n : Nat} {xs ys zs : List α} :
    splitExactly? n xs = some (ys, zs) ↔ ys.length = n ∧ xs = ys ++ zs := by
  simp only [splitExactly?, Option.ite_none_right_eq_some, Option.some.injEq, Prod.mk.injEq]
  constructor
  · rintro ⟨h, rfl, rfl⟩
    exact ⟨h, (List.take_append_drop n xs).symm⟩
  · rintro ⟨rfl, rfl⟩
    simp

namespace Reader

variable {α β : Type}

/-- Goes on with the value of a reader, from the cursor that the reader left. -/
protected def bind (r : Reader α) (f : α → Reader β) : Reader β where
  run c :=
    match r.run c with
    | (.ok a, c) => (f a).run c
    | (.error e, c) => (.error e, c)

instance : Monad Reader where
  pure a := ⟨fun c ↦ (.ok a, c)⟩
  bind := Reader.bind

/-- A value alone consumes nothing. -/
@[simp] theorem run_pure (a : α) (c : Cursor) : (pure a : Reader α).run c = (.ok a, c) := rfl

/-- After a reader that succeeds the next one starts where it stopped; a failure is final. -/
theorem run_bind (r : Reader α) (f : α → Reader β) (c : Cursor) :
    (r >>= f).run c =
      match r.run c with
      | (.ok a, c) => (f a).run c
      | (.error e, c) => (.error e, c) :=
  rfl

/-- A function on the value leaves the cursor alone. -/
@[simp] theorem run_map (f : α → β) (r : Reader α) (c : Cursor) :
    (f <$> r).run c = ((r.run c).1.map f, (r.run c).2) := by
  show (r >>= fun a ↦ pure (f a)).run c = _
  rw [run_bind]
  split <;> simp_all [Except.map]

/-- Reads exactly `n` bytes. -/
def bytes (n : Nat) : Reader (List UInt8) where
  run c :=
    match splitExactly? n c.rest with
    | some (taken, rest) => (.ok taken, ⟨rest, c.pos + n⟩)
    | none => (.error .outOfBounds, c)

/-- Reads one byte. -/
def byte : Reader UInt8 where
  run c :=
    match c.rest with
    | b :: rest => (.ok b, ⟨rest, c.pos + 1⟩)
    | [] => (.error .outOfBounds, c)

/-- The number of bytes read so far. -/
def position : Reader Nat := ⟨fun c ↦ (.ok c.pos, c)⟩

/-- The number of bytes left. -/
def remaining : Reader Nat := ⟨fun c ↦ (.ok c.rest.length, c)⟩

/-- Takes over the outcome of a computation that reads nothing. -/
def ofExcept (r : Except Error α) : Reader α := ⟨fun c ↦ (r, c)⟩

/-- Gives up because the input is malformed. -/
def fail (cause : Malformed) : Reader α := ofExcept (.error (.malformed cause))

/-- Reads something `n` times from a cursor; what was read before is given in reverse. -/
def runTimes (read : Reader α) : Nat → List α → Cursor → Except Error (List α) × Cursor
  | 0, acc, c => (.ok acc.reverse, c)
  | n + 1, acc, c =>
    match read.run c with
    | (.ok a, c) => runTimes read n (a :: acc) c
    | (.error e, c) => (.error e, c)

/-- Reads something `n` times. -/
def times (read : Reader α) (n : Nat) : Reader (List α) := ⟨runTimes read n []⟩

/-- Bytes in front are read, and the others are left. -/
@[simp] theorem run_bytes_append (taken rest : List UInt8) (pos : Nat) :
    (bytes taken.length).run ⟨taken ++ rest, pos⟩ = (.ok taken, ⟨rest, pos + taken.length⟩) := by
  simp [bytes, splitExactly?]

/-- The byte in front is read. -/
@[simp] theorem run_byte_cons (b : UInt8) (rest : List UInt8) (pos : Nat) :
    byte.run ⟨b :: rest, pos⟩ = (.ok b, ⟨rest, pos + 1⟩) := rfl

/-- At the end of the input there is no byte. -/
@[simp] theorem run_byte_nil (pos : Nat) :
    byte.run ⟨[], pos⟩ = (.error .outOfBounds, ⟨[], pos⟩) := rfl

/-- Asking for the position consumes nothing. -/
@[simp] theorem run_position (c : Cursor) : position.run c = (.ok c.pos, c) := rfl

/-- Asking for what is left consumes nothing. -/
@[simp] theorem run_remaining (c : Cursor) : remaining.run c = (.ok c.rest.length, c) := rfl

/-- An outcome that is taken over consumes nothing. -/
@[simp] theorem run_ofExcept (r : Except Error α) (c : Cursor) : (ofExcept r).run c = (r, c) := rfl

/-- Giving up consumes nothing. -/
@[simp] theorem run_fail (cause : Malformed) (c : Cursor) :
    (fail cause : Reader α).run c = (.error (.malformed cause), c) := rfl

/-- What was read before stands in front of what is read now. -/
theorem runTimes_eq (read : Reader α) (n : Nat) (acc : List α) (c : Cursor) :
    runTimes read n acc c =
      (((times read n).run c).1.map (acc.reverse ++ ·), ((times read n).run c).2) := by
  show _ = ((runTimes read n [] c).1.map (acc.reverse ++ ·), (runTimes read n [] c).2)
  induction n generalizing acc c with
  | zero => simp [runTimes, Except.map]
  | succ n ih =>
    unfold runTimes
    match read.run c with
    | (.error e, c) => rfl
    | (.ok a, c) =>
      simp only [ih (a :: acc), ih [a]]
      cases (runTimes read n [] c).1 <;> simp [Except.map]

/-- Reading nothing gives nothing. -/
@[simp] theorem run_times_zero (read : Reader α) (c : Cursor) :
    (times read 0).run c = (.ok [], c) := rfl

/-- Reading once more is reading one and then the others. -/
theorem run_times_succ (read : Reader α) (n : Nat) (c : Cursor) :
    (times read (n + 1)).run c = (read >>= fun a ↦ (a :: ·) <$> times read n).run c := by
  show runTimes read (n + 1) [] c = _
  rw [run_bind]
  unfold runTimes
  match read.run c with
  | (.error e, c) => rfl
  | (.ok a, c) => simp [runTimes_eq read n [a]]

end Reader

end Hotswap
