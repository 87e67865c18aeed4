import Hotswap.Proofs.Results

/-!
# Programs that change a state in place

A function that returns a new state leaves the old one alone when it fails. A program that changes a
state in place can fail half-way, and then what it changed so far stays changed. It comes to the
same as such a function if everything in it that can fail comes before everything that changes the
state; what each of its parts comes to is what these laws are about.
-/

namespace Hotswap

/-- Programs that change a state in place and can fail. A failure undoes nothing. -/
abbrev InPlace (ε σ α : Type) : Type := ExceptT ε (StateM σ) α

namespace InPlace

variable {ε σ τ α β : Type}

/-- What a program comes to on a state, and the state that it leaves, also when it fails. -/
def exec (p : InPlace ε σ α) (s : σ) : Except ε α × σ := (p.run.run s).run

/-- Takes something from the state, which can fail. -/
def ask (f : σ → Except ε α) : InPlace ε σ α := ExceptT.mk (f <$> get)

/-- Fails on some states. -/
def refuse (c : σ → Bool) (e : σ → ε) : InPlace ε σ Unit :=
  ask fun s ↦ if c s then .error (e s) else .ok ()

/-- Changes the state, which cannot fail. -/
def store (f : σ → α × σ) : InPlace ε σ α := modifyGet f

/-- Runs a program on a part of the state. What the program leaves of the part is put back, whether
it fails or not. -/
def focus (get : σ → τ) (put : τ → σ → σ) (p : InPlace ε τ α) : InPlace ε σ α :=
  ExceptT.mk fun s ↦ pure ((p.exec (get s)).1, put (p.exec (get s)).2 s)

/-- The outcome of a function that returns a new state, on a state that is changed in place: the new
state replaces the old one if there is one. -/
def settle (s : σ) : Except ε (α × σ) → Except ε α × σ
  | .ok (a, s') => (.ok a, s')
  | .error e => (.error e, s)

/-- The outcome of a function that returns nothing but a new state. -/
def replace (s : σ) (r : Except ε σ) : Except ε Unit × σ := settle s (((), ·) <$> r)

variable {p : InPlace ε σ α} {s s' : σ} {r : Except ε (α × σ)}

@[simp] theorem exec_pure (a : α) (s : σ) : exec (pure a : InPlace ε σ α) s = (.ok a, s) := rfl

@[simp] theorem exec_throw (e : ε) (s : σ) :
    exec (throw e : InPlace ε σ α) s = (.error e, s) := rfl

/-- A failure ends a program; the state is as the first part left it. -/
theorem exec_bind (p : InPlace ε σ α) (q : α → InPlace ε σ β) (s : σ) :
    exec (p >>= q) s = match p.exec s with
      | (.ok a, s') => (q a).exec s'
      | (.error e, s') => (.error e, s') := by
  obtain ⟨o, s', h⟩ : ∃ o s', p.exec s = (o, s') := ⟨_, _, rfl⟩
  rw [h]
  show exec (ExceptT.mk (p.run >>= ExceptT.bindCont q)) s = _
  have hrun : p.run.run s = (o, s') := h
  simp only [exec, ExceptT.run_mk, StateT.run_bind, hrun]
  cases o <;> rfl

theorem exec_map (g : α → β) (p : InPlace ε σ α) (s : σ) :
    exec (g <$> p) s = (g <$> (p.exec s).1, (p.exec s).2) := by
  rw [map_eq_pure_bind, exec_bind]
  obtain ⟨o, s', h⟩ : ∃ o s', p.exec s = (o, s') := ⟨_, _, rfl⟩
  rw [h]
  cases o <;> rfl

@[simp] theorem exec_ask_bind (f : σ → Except ε α) (q : α → InPlace ε σ β) (s : σ) :
    exec (ask f >>= q) s = match f s with
      | .ok a => (q a).exec s
      | .error e => (.error e, s) := by
  rw [exec_bind]
  show (match ((f s, s) : Except ε α × σ) with | (.ok a, s') => _ | (.error e, s') => _) = _
  cases f s <;> rfl

@[simp] theorem exec_ask (f : σ → Except ε α) (s : σ) : exec (ask f) s = (f s, s) := rfl

@[simp] theorem exec_store (f : σ → α × σ) (s : σ) :
    exec (store f : InPlace ε σ α) s = (.ok (f s).1, (f s).2) := rfl

@[simp] theorem exec_store_bind (f : σ → α × σ) (q : α → InPlace ε σ β) (s : σ) :
    exec (store f >>= q) s = (q (f s).1).exec (f s).2 := by
  rw [exec_bind, exec_store]

/-- To take something from the state for each member of a list leaves the state as it is. -/
theorem exec_mapM_ask (f : β → σ → Except ε α) (bs : List β) (s : σ) :
    exec (bs.mapM fun b ↦ ask (f b)) s = (bs.mapM (f · s), s) := by
  induction bs with
  | nil => rfl
  | cons b rest ih =>
    rw [List.mapM_cons, List.mapM_cons, exec_ask_bind]
    cases f b s with
    | error e => rfl
    | ok a =>
      dsimp only
      rw [exec_bind, ih]
      cases rest.mapM (f · s) <;> rfl

/-- Programs that cannot fail and are run one after the other add up. -/
theorem exec_forM_of_ok {p : β → InPlace ε σ PUnit} {g : σ → β → σ}
    (h : ∀ b s, (p b).exec s = (.ok ⟨⟩, g s b)) (bs : List β) (s : σ) :
    exec (bs.forM p) s = (.ok ⟨⟩, bs.foldl g s) := by
  induction bs generalizing s with
  | nil => rfl
  | cons b rest ih =>
    show exec (p b >>= fun _ ↦ rest.forM p) s = _
    rw [exec_bind, h, List.foldl_cons, ← ih (g s b)]

/-- To take something from the state first cannot half-change it. -/
theorem exec_ask_bind_of_replace {f : σ → Except ε α} {q : α → InPlace ε σ Unit}
    {r : α → Except ε σ} (h : ∀ a, (q a).exec s = replace s (r a)) :
    exec (ask f >>= q) s = replace s (f s >>= r) := by
  rw [exec_ask_bind]
  cases f s with
  | error e => rfl
  | ok a => exact h a

theorem exec_refuse_bind (c : σ → Bool) (e : σ → ε) (q : Unit → InPlace ε σ α) (s : σ) :
    exec (refuse c e >>= q) s = if c s then (.error (e s), s) else (q ()).exec s := by
  rw [refuse, exec_ask_bind]
  cases c s <;> rfl

theorem exec_refuse_bind_of_replace {c : σ → Bool} {e : σ → ε} {q : Unit → InPlace ε σ Unit}
    {r : Except ε σ} (h : (q ()).exec s = replace s r) :
    exec (refuse c e >>= q) s = replace s (if c s then .error (e s) else r) := by
  rw [exec_refuse_bind, h]
  cases c s <;> rfl

/-- A program on a part that changes all or nothing of the part does so of the whole. -/
theorem exec_focus_of_replace {get : σ → τ} {put : τ → σ → σ} {p : InPlace ε τ Unit}
    {r : Except ε τ} (hput : put (get s) s = s) (h : p.exec (get s) = replace (get s) r) :
    exec (focus get put p) s = replace s ((put · s) <$> r) := by
  show ((p.exec (get s)).1, put (p.exec (get s)).2 s) = _
  rw [h]
  cases r with
  | ok x => rfl
  | error e => exact congrArg (Except.error e, ·) hput

/-- A program that changes all or nothing fails where the function does, with the state as it
was. -/
theorem exec_eq_error_iff (h : p.exec s = settle s r) {e : ε} :
    p.exec s = (.error e, s') ↔ s' = s ∧ r = .error e := by
  rw [h]
  rcases r with d | ⟨a, t⟩
  · simp only [settle, Prod.mk.injEq, Except.error.injEq, eq_comm, and_comm]
  · simp [settle]

/-- It succeeds where the function does, with the new state. -/
theorem exec_eq_ok_iff (h : p.exec s = settle s r) {a : α} :
    p.exec s = (.ok a, s') ↔ r = .ok (a, s') := by
  rw [h]
  rcases r with d | ⟨b, t⟩ <;> simp [settle]

theorem exec_eq_error_iff_of_replace {p : InPlace ε σ Unit} {r : Except ε σ}
    (h : p.exec s = replace s r) {e : ε} :
    p.exec s = (.error e, s') ↔ s' = s ∧ r = .error e := by
  rw [exec_eq_error_iff h, map_eq_error]

theorem exec_eq_ok_iff_of_replace {p : InPlace ε σ Unit} {r : Except ε σ}
    (h : p.exec s = replace s r) : p.exec s = (.ok (), s') ↔ r = .ok s' := by
  rw [exec_eq_ok_iff h, map_eq_ok]
  simp only [Prod.mk.injEq, true_and, exists_eq_right]

end InPlace

end Hotswap
