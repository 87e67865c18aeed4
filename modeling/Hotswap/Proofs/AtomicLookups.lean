import Hotswap.Proofs.InPlace
import Hotswap.Proofs.Keeping

/-!
# Look-ups and insertions in place

A class that is added to a pool changes it in two places: a record comes into the arena, and its
number into the index. Between the two, arena and index do not belong together. Nothing can fail
there: whatever a look-up or an insertion can fail with comes before it changes anything. So one
that fails, or finds nothing, leaves the arena and the index as they were, and one that succeeds
leaves the two of them as a pool has them.
-/

namespace Hotswap

namespace Holdings

/-- Puts a record behind the others, and then its number under the name of its class. -/
def addInPlace (decl : ClassDecl) : InPlace Error Holdings RecordId := do
  let id ← .store fun h ↦ (⟨h.arena.length⟩, { h with arena := h.arena ++ [⟨.ofDecl decl, false⟩] })
  .store fun h ↦ (id, { h with index := h.index.put decl.name id })

/-- The record of a number that the index has given, if the arena has it. -/
def fetchInPlace (id : RecordId) : InPlace Error Holdings (Option RecordId) :=
  .ask fun h ↦ .ok ((h.arena[id.index]?).map fun _ ↦ id)

/-- The record of a name, loaded from the classpath if the name is not bound. The index is asked
once more before the class is added. -/
def getOrNoneInPlace (lib : Library) (name : String) :
    InPlace Error Holdings (Option RecordId) := do
  match ← .ask fun h ↦ .ok (h.index.get? name) with
  | some id => fetchInPlace id
  | none =>
    match ← .ask fun h ↦ lib.find name h.classpath with
    | none => pure none
    | some image => do
      let decl ← .ask fun _ ↦ ClassDecl.decode image
      .refuse (fun _ ↦ decl.name ≠ name) fun _ ↦ .malformed (.misplacedImage name decl.name)
      match ← .ask fun h ↦ .ok (h.index.get? name) with
      | some id => fetchInPlace id
      | none => some <$> addInPlace decl

/-- The record of a name; a name that no source provides is an error. -/
def getInPlace (lib : Library) (name : String) : InPlace Error Holdings RecordId := do
  match ← getOrNoneInPlace lib name with
  | some id => pure id
  | none => throw (.typeNotFound name)

/-- Adds a class whose name is not bound. -/
def insertInPlace (decl : ClassDecl) : InPlace Error Holdings RecordId := do
  match ← .ask fun h ↦ .ok (h.index.get? decl.name) with
  | some _ => throw (.duplicateMember decl.name "<type>")
  | none => addInPlace decl

end Holdings

namespace Pool

open Holdings

variable {α : Type} {p q : Pool} {lib : Library} {name : String}

/-- The outcome of an operation on a pool, on the parts of the pool when they are changed in
place. -/
def settled (p : Pool) (r : Except Error (α × Pool)) : Except Error α × Holdings :=
  InPlace.settle p.toHoldings ((fun a ↦ (a.1, a.2.toHoldings)) <$> r)

/-- Adding a class whose name is not bound leaves the parts of a pool. -/
theorem exec_addInPlace {decl : ClassDecl} (h : p.bound? decl.name = none) :
    (addInPlace decl).exec p.toHoldings = (.ok (p.bind decl).2, (p.bind decl).1.toHoldings) := by
  rw [bind_of_none h]
  rfl

/-- What the index gives is in the arena. -/
theorem exec_fetchInPlace {id : RecordId} (h : p.bound? name = some id) :
    (fetchInPlace id).exec p.toHoldings = (.ok (some id), p.toHoldings) := by
  obtain ⟨record, hrecord⟩ := exists_record_of_bound h
  rw [fetchInPlace, InPlace.exec_ask]
  show (Except.ok ((p.record? id).map fun _ ↦ id), p.toHoldings) = _
  rw [hrecord]
  rfl

/-- A name that is bound is looked up without the sources. -/
theorem get?_of_bound {id : RecordId} (h : p.bound? name = some id) :
    p.get? lib name = .ok (some id, p) := by
  simp only [get?, h]

/-- A look-up that finds nothing leaves the pool alone: nothing was loaded either. -/
theorem eq_of_get?_none (h : p.get? lib name = .ok (none, q)) : q = p := by
  rcases get?_eq_ok h with ⟨-, rfl⟩ | ⟨_, hfound, -⟩ | ⟨_, -, -, -, hfound⟩
  · rfl
  · cases hfound
  · cases hfound

/-- Looking a name up in place comes to the same as looking it up, whatever it fails with. -/
theorem exec_getOrNoneInPlace (p : Pool) (lib : Library) (name : String) :
    (getOrNoneInPlace lib name).exec p.toHoldings = p.settled (p.get? lib name) := by
  rw [getOrNoneInPlace, InPlace.exec_ask_bind]
  cases hbound : p.bound? name with
  | some id =>
    have hindex : p.index.get? name = some id := hbound
    rw [get?_of_bound hbound, hindex]
    exact exec_fetchInPlace hbound
  | none =>
    have hindex : p.index.get? name = none := hbound
    simp only [hindex, InPlace.exec_ask_bind, get?, hbound]
    cases lib.find name p.classpath with
    | error e => rfl
    | ok image? =>
      cases image? with
      | none => rfl
      | some image =>
        simp only [InPlace.exec_ask_bind]
        show _ = p.settled (ClassDecl.decode image >>= fun decl ↦
          if decl.name = name then pure (some (p.bind decl).2, (p.bind decl).1)
          else throw (.malformed (.misplacedImage name decl.name)))
        cases ClassDecl.decode image with
        | error e => rfl
        | ok decl =>
          simp only [InPlace.exec_refuse_bind]
          show _ = p.settled (if decl.name = name then _ else _)
          by_cases hname : decl.name = name
          · subst hname
            rw [if_neg (by simp), if_pos rfl]
            simp only [InPlace.exec_ask_bind, hindex, InPlace.exec_map, exec_addInPlace hbound]
            rfl
          · rw [if_pos (by simpa using hname), if_neg hname]
            rfl

/-- Asking in place for a name that must be there comes to the same as asking for it. -/
theorem exec_getInPlace (p : Pool) (lib : Library) (name : String) :
    (getInPlace lib name).exec p.toHoldings = p.settled (p.get lib name) := by
  rw [getInPlace, InPlace.exec_bind, exec_getOrNoneInPlace, get]
  cases hget : p.get? lib name with
  | error e => rfl
  | ok looked =>
    obtain ⟨_ | id, q⟩ := looked
    · rw [eq_of_get?_none hget]
      rfl
    · rfl

/-- Inserting in place comes to the same as inserting, whatever it fails with. -/
theorem exec_insertInPlace (p : Pool) (decl : ClassDecl) :
    (insertInPlace decl).exec p.toHoldings = p.settled (p.insert decl) := by
  rw [insertInPlace, InPlace.exec_ask_bind, insert, contains]
  cases hbound : p.bound? decl.name with
  | some id =>
    have hindex : p.index.get? decl.name = some id := hbound
    simp only [hindex]
    rfl
  | none =>
    have hindex : p.index.get? decl.name = none := hbound
    simp only [hindex, exec_addInPlace hbound]
    rfl

/-- What a pool is asked for. -/
inductive Request where
  | get (name : String)
  | getOrNone (name : String)
  | insert (decl : ClassDecl)

namespace Request

/-- What a pool answers, and what it is then. -/
def answer (lib : Library) (p : Pool) : Request → Except Error (Option RecordId × Pool)
  | get name => (fun a ↦ (some a.1, a.2)) <$> p.get lib name
  | getOrNone name => p.get? lib name
  | insert decl => (fun a ↦ (some a.1, a.2)) <$> p.insert decl

/-- The request as it changes the parts of the pool. -/
def inPlace (lib : Library) : Request → InPlace Error Holdings (Option RecordId)
  | get name => some <$> getInPlace lib name
  | getOrNone name => getOrNoneInPlace lib name
  | insert decl => some <$> insertInPlace decl

theorem exec_inPlace (p : Pool) (lib : Library) (request : Request) :
    (request.inPlace lib).exec p.toHoldings = p.settled (request.answer lib p) := by
  have hmap : ∀ r : Except Error (RecordId × Pool),
      (some <$> (p.settled r).1, (p.settled r).2) =
        p.settled ((fun a ↦ (some a.1, a.2)) <$> r) := by
    rintro (e | a) <;> rfl
  cases request with
  | get name => rw [inPlace, InPlace.exec_map, exec_getInPlace, hmap, answer]
  | getOrNone name => exact exec_getOrNoneInPlace p lib name
  | insert decl => rw [inPlace, InPlace.exec_map, exec_insertInPlace, hmap, answer]

/-- A pool that answers without a record is what it was. -/
theorem eq_of_answer_none {request : Request} (h : request.answer lib p = .ok (none, q)) :
    q = p := by
  cases request with
  | get name =>
    obtain ⟨a, -, ha⟩ := map_eq_ok.mp h
    cases ha
  | getOrNone name => exact eq_of_get?_none h
  | insert decl =>
    obtain ⟨a, -, ha⟩ := map_eq_ok.mp h
    cases ha

/-- A request that fails or finds nothing leaves arena and index as they were. -/
theorem unchanged {request : Request} {outcome : Except Error (Option RecordId)} {h : Holdings}
    (hexec : (request.inPlace lib).exec p.toHoldings = (outcome, h))
    (hmissed : outcome = .ok none ∨ ∃ e, outcome = .error e) : h = p.toHoldings := by
  have hsettled := exec_inPlace p lib request
  rcases hmissed with rfl | ⟨e, rfl⟩
  · obtain ⟨⟨id, q⟩, hanswer, hq⟩ := map_eq_ok.mp ((InPlace.exec_eq_ok_iff hsettled).mp hexec)
    cases hq
    rw [eq_of_answer_none hanswer]
  · exact ((InPlace.exec_eq_error_iff hsettled).mp hexec).1

/-- A request that gets a record leaves the parts of the pool that it leads to. -/
theorem exec_inPlace_eq_ok_iff {request : Request} {found : Option RecordId} {h : Holdings} :
    (request.inPlace lib).exec p.toHoldings = (.ok found, h) ↔
      ∃ q, request.answer lib p = .ok (found, q) ∧ h = q.toHoldings := by
  rw [InPlace.exec_eq_ok_iff (exec_inPlace p lib request), map_eq_ok]
  constructor
  · rintro ⟨⟨_, q⟩, hanswer, ⟨⟩⟩
    exact ⟨q, hanswer, rfl⟩
  · rintro ⟨q, hanswer, rfl⟩
    exact ⟨(found, q), hanswer, rfl⟩

end Request

end Pool

end Hotswap
