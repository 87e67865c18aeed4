import Hotswap.Patch.Resolve
import Hotswap.Proofs.Results
import Mathlib.Logic.Relation

/-!
# What pools keep

A pool keeps its classes while every record holds the class that it held, and every record that is
added holds the class whose image the classpath has under its name. Looking a name up and resolving
a method keep the classes of a pool. Whoever asks a pool for a class by its name cannot tell two
pools apart of which one was kept.
-/

namespace Hotswap

namespace Pool

variable {lib : Library}

/-- The classpath of a pool has the image of a class under its name. -/
def Provides (p : Pool) (lib : Library) (name : String) (decl : ClassDecl) : Prop :=
  ∃ image, lib.find name p.classpath = .ok (some image) ∧ ClassDecl.decode image = .ok decl ∧
    decl.name = name

/-- The second pool has every record of the first, with the same class and at the same place; its
further records hold what the classpath has under their names. -/
structure Keeps (lib : Library) (p q : Pool) : Prop where
  classpath : q.classpath = p.classpath
  old : ∀ {i : Nat} {name : String} {record : Record},
    p.bindings[i]? = some (name, record) →
      ∃ type, q.bindings[i]? = some (name, { record with type }) ∧ type.decl = record.type.decl
  new : ∀ {i : Nat} {name : String} {record : Record}, p.size ≤ i →
    q.bindings[i]? = some (name, record) →
      p.Provides lib name record.type.decl ∧ record.broken = false

/-! ## Records and names -/

/-- At a place of the arena stands a record, and the name of the place is its name. -/
theorem getElem?_bindings {p : Pool} {i : Nat} {name : String} {record : Record} :
    p.bindings[i]? = some (name, record) ↔
      p.index.keys[i]? = some name ∧ p.arena[i]? = some record := by
  rw [bindings, List.getElem?_zip_eq_some]

@[simp] theorem length_bindings (p : Pool) : p.bindings.length = p.size := by
  rw [bindings, List.length_zip, p.coupled.length_keys, Nat.min_self, size]

/-- What stands at a place is below the number of records. -/
theorem lt_size_of_getElem? {p : Pool} {i : Nat} {b : String × Record}
    (h : p.bindings[i]? = some b) : i < p.size := by
  rw [← length_bindings]
  exact (List.getElem?_eq_some_iff.mp h).1

/-- Every place below the number of records is taken. -/
theorem exists_getElem?_of_lt {p : Pool} {i : Nat} (h : i < p.size) :
    ∃ name record, p.bindings[i]? = some (name, record) :=
  ⟨_, _, List.getElem?_eq_getElem (by rwa [length_bindings])⟩

/-- A record is what stands at its place. -/
theorem record?_eq_some_iff {p : Pool} {id : RecordId} {record : Record} :
    p.record? id = some record ↔ ∃ name, p.bindings[id.index]? = some (name, record) := by
  constructor
  · intro h
    obtain ⟨name, record', h'⟩ := exists_getElem?_of_lt (List.getElem?_eq_some_iff.mp h).1
    obtain rfl : record = record' := Option.some.inj (h.symm.trans (getElem?_bindings.mp h').2)
    exact ⟨name, h'⟩
  · rintro ⟨name, h⟩
    exact (getElem?_bindings.mp h).2

/-- Changing a record changes what stands at its place. -/
theorem getElem?_modify (p : Pool) (id : RecordId) (f : Record → Record) (i : Nat) :
    (p.modify id f).bindings[i]? =
      p.bindings[i]?.map fun b ↦ if id.index = i then (b.1, f b.2) else b := by
  simp only [bindings, modify, List.zip, List.getElem?_zipWith, List.getElem?_modify]
  cases p.index.keys[i]? with
  | none => rfl
  | some name =>
    cases p.arena[i]? with
    | none => rfl
    | some record =>
      by_cases hi : id.index = i <;> simp [hi]

/-- Changing a record leaves the number of records alone. -/
@[simp] theorem size_modify (p : Pool) (id : RecordId) (f : Record → Record) :
    (p.modify id f).size = p.size :=
  List.length_modify ..

/-- A changed record is the change of what it was. -/
theorem record?_modify_self (p : Pool) (id : RecordId) (f : Record → Record) :
    (p.modify id f).record? id = (p.record? id).map f := by
  rw [record?, modify, List.getElem?_modify_eq, record?]
  rfl

/-- Other records do not change. -/
theorem record?_modify_of_ne (p : Pool) {id other : RecordId} (f : Record → Record)
    (h : id ≠ other) : (p.modify id f).record? other = p.record? other := by
  have hi : id.index ≠ other.index := fun hi ↦ h (congrArg RecordId.mk hi)
  exact List.getElem?_modify_ne f _ hi

/-- Of two changes of one record the second works on what the first has made. -/
theorem modify_modify (p : Pool) (id : RecordId) (f g : Record → Record) :
    (p.modify id f).modify id g = p.modify id (g ∘ f) := by
  simp only [modify, List.modify_modify_eq]

/-- A name is bound to the record that has it. -/
theorem bound?_eq_some_iff {p : Pool} {name : String} {id : RecordId} :
    p.bound? name = some id ↔ ∃ record, p.bindings[id.index]? = some (name, record) := by
  rw [bound?, p.coupled.get?_eq_some_iff]
  constructor
  · intro h
    have hlt := (List.getElem?_eq_some_iff.mp h).1
    rw [p.coupled.length_keys] at hlt
    exact ⟨_, getElem?_bindings.mpr ⟨h, List.getElem?_eq_getElem hlt⟩⟩
  · rintro ⟨record, h⟩
    exact (getElem?_bindings.mp h).1

/-- What is bound has a record. -/
theorem exists_record_of_bound {p : Pool} {name : String} {id : RecordId}
    (h : p.bound? name = some id) : ∃ record, p.record? id = some record := by
  obtain ⟨record, hrecord⟩ := bound?_eq_some_iff.mp h
  exact ⟨record, record?_eq_some_iff.mpr ⟨name, hrecord⟩⟩

/-- Two names are not bound to one record. -/
theorem name_eq_of_bound? {p : Pool} {name name' : String} {id : RecordId}
    (h : p.bound? name = some id) (h' : p.bound? name' = some id) : name = name' := by
  obtain ⟨_, hname⟩ := bound?_eq_some_iff.mp h
  obtain ⟨_, hname'⟩ := bound?_eq_some_iff.mp h'
  exact congrArg Prod.fst (Option.some.inj (hname.symm.trans hname'))

/-- A name is not bound if no record has it. -/
theorem bound?_eq_none_iff {p : Pool} {name : String} :
    p.bound? name = none ↔ ∀ (i : Nat) (record : Record), p.bindings[i]? ≠ some (name, record) := by
  rw [Option.eq_none_iff_forall_ne_some]
  constructor
  · exact fun h i record hi ↦ h ⟨i⟩ (bound?_eq_some_iff.mpr ⟨record, hi⟩)
  · rintro h id hid
    obtain ⟨record, hi⟩ := bound?_eq_some_iff.mp hid
    exact h id.index record hi

/-- Changing a record changes no name. -/
theorem bound?_modify (p : Pool) (id : RecordId) (f : Record → Record) (name : String) :
    (p.modify id f).bound? name = p.bound? name := rfl

/-- A class whose name is not bound gets a record behind the others. -/
theorem bind_of_none {p : Pool} {decl : ClassDecl} (h : p.bound? decl.name = none) :
    p.bind decl = (p.push decl h, ⟨p.size⟩) := by
  rw [bind]
  split
  · next hsome =>
    rw [h] at hsome
    cases hsome
  · rfl

theorem bindings_bind {p : Pool} {decl : ClassDecl} (h : p.bound? decl.name = none) :
    (p.bind decl).1.bindings = p.bindings ++ [(decl.name, ⟨.ofDecl decl, false⟩)] := by
  rw [bind_of_none h, bindings, push, Table.keys, Table.entries_put_of_get?_eq_none h,
    List.map_append]
  exact List.zip_append p.coupled.length_keys

/-- A class whose name is bound is not bound again. -/
theorem bind_of_some {p : Pool} {decl : ClassDecl} {id : RecordId}
    (h : p.bound? decl.name = some id) : p.bind decl = (p, id) := by
  rw [bind]
  split
  · next hsome => rw [Option.some.inj (hsome.symm.trans h)]
  · next hnone =>
    rw [h] at hnone
    cases hnone

/-! ## Keeping -/

/-- A pool keeps what it has. -/
theorem Keeps.refl (p : Pool) : p.Keeps lib p where
  classpath := rfl
  old := fun h ↦ ⟨_, h, rfl⟩
  new := by
    intro i name record hi h
    exact absurd (lt_size_of_getElem? h) (Nat.not_lt.mpr hi)

/-- A pool that is kept loses no record. -/
theorem Keeps.size_le {p q : Pool} (h : p.Keeps lib q) : p.size ≤ q.size := by
  refine Nat.le_of_not_lt fun hlt ↦ ?_
  obtain ⟨name, record, hrecord⟩ := exists_getElem?_of_lt hlt
  obtain ⟨type, htype, _⟩ := h.old hrecord
  exact Nat.lt_irrefl _ (lt_size_of_getElem? htype)

/-- What is kept twice is kept. -/
theorem Keeps.trans {p q r : Pool} (h₁ : p.Keeps lib q) (h₂ : q.Keeps lib r) :
    p.Keeps lib r where
  classpath := h₂.classpath.trans h₁.classpath
  old := by
    intro i name record h
    obtain ⟨type, htype, hdecl⟩ := h₁.old h
    obtain ⟨type', htype', hdecl'⟩ := h₂.old htype
    exact ⟨type', htype', hdecl'.trans hdecl⟩
  new := by
    intro i name record hi h
    by_cases hlt : i < q.size
    · -- The record was added first and kept then.
      obtain ⟨name', record', hrecord'⟩ := exists_getElem?_of_lt hlt
      obtain ⟨type, htype, hdecl⟩ := h₂.old hrecord'
      rw [htype] at h
      cases h
      obtain ⟨hprovides, hbroken⟩ := h₁.new hi hrecord'
      rw [← hdecl] at hprovides
      exact ⟨hprovides, hbroken⟩
    · obtain ⟨hprovides, hbroken⟩ := h₂.new (Nat.not_lt.mp hlt) h
      rw [Provides, h₁.classpath] at hprovides
      exact ⟨hprovides, hbroken⟩

/-- A record that is kept holds the class that it held and is as usable as it was. -/
theorem Keeps.record? {p q : Pool} (h : p.Keeps lib q) {id : RecordId} {record : Record}
    (hrecord : p.record? id = some record) :
    ∃ type, q.record? id = some { record with type } ∧ type.decl = record.type.decl := by
  obtain ⟨name, hname⟩ := record?_eq_some_iff.mp hrecord
  obtain ⟨type, htype, hdecl⟩ := h.old hname
  exact ⟨type, record?_eq_some_iff.mpr ⟨name, htype⟩, hdecl⟩

/-- What stands at a place that was taken already has the name that it had. -/
theorem Keeps.of_lt {p q : Pool} (h : p.Keeps lib q) {i : Nat} {name : String} {record : Record}
    (hi : i < p.size) (hrecord : q.bindings[i]? = some (name, record)) :
    ∃ old, p.bindings[i]? = some (name, old) := by
  obtain ⟨name', old, hold⟩ := exists_getElem?_of_lt hi
  obtain ⟨_, hnew, _⟩ := h.old hold
  rw [hnew] at hrecord
  cases hrecord
  exact ⟨_, hold⟩

/-- A change that leaves the class of a record and its use alone keeps the pool. -/
theorem keeps_modify {p : Pool} {id : RecordId} {f : Record → Record}
    (hf : ∀ record, p.record? id = some record →
      (f record).type.decl = record.type.decl ∧ (f record).broken = record.broken) :
    p.Keeps lib (p.modify id f) where
  classpath := rfl
  old := by
    intro i name record h
    rw [getElem?_modify, h]
    by_cases hi : id.index = i
    · obtain ⟨hdecl, hbroken⟩ := hf record (record?_eq_some_iff.mpr ⟨name, hi ▸ h⟩)
      refine ⟨(f record).type, ?_, hdecl⟩
      rw [← hbroken]
      simp [hi]
    · exact ⟨record.type, by simp [hi], rfl⟩
  new := by
    intro i name record hi h
    have hlt := lt_size_of_getElem? h
    rw [size_modify] at hlt
    exact absurd hlt (Nat.not_lt.mpr hi)

/-- A change of a record that does not ask whether it is frozen keeps what was kept. -/
theorem Keeps.modify {p q : Pool} (h : p.Keeps lib q) {id : RecordId} {f : Record → Record}
    (hid : id.index < p.size)
    (hf : ∀ record type, type.decl = record.type.decl →
      (f { record with type }).type.decl = (f record).type.decl ∧
        (f { record with type }).broken = (f record).broken) :
    (p.modify id f).Keeps lib (q.modify id f) where
  classpath := h.classpath
  old := by
    intro i name record hi
    rw [getElem?_modify] at hi ⊢
    obtain ⟨⟨name', record'⟩, hb, hi⟩ := Option.map_eq_some_iff.mp hi
    obtain ⟨type, htype, hdecl⟩ := h.old hb
    rw [htype]
    by_cases hidx : id.index = i
    · simp only [hidx, if_true] at hi
      cases hi
      obtain ⟨hdecl', hbroken⟩ := hf record' type hdecl
      refine ⟨(f { record' with type }).type, ?_, hdecl'⟩
      rw [← hbroken]
      simp [hidx]
    · simp only [hidx, if_false] at hi
      cases hi
      exact ⟨type, by simp [hidx], hdecl⟩
  new := by
    intro i name record hi hrecord
    rw [size_modify] at hi
    have hne : id.index ≠ i := by omega
    rw [getElem?_modify] at hrecord
    simp only [hne, if_false, Option.map_id'] at hrecord
    exact h.new hi hrecord

/-! ## Looking names up -/

/-- What a look-up comes to: nothing, a record that was there, or one that was loaded. -/
theorem get?_eq_ok {p q : Pool} {name : String} {found : Option RecordId}
    (h : p.get? lib name = .ok (found, q)) :
    (found = none ∧ q = p) ∨ (∃ id, found = some id ∧ p.bound? name = some id ∧ q = p) ∨
      ∃ decl, p.bound? name = none ∧ p.Provides lib name decl ∧ q = (p.bind decl).1 ∧
        found = some (p.bind decl).2 := by
  rw [get?] at h
  split at h
  · next id hbound =>
    cases h
    exact .inr (.inl ⟨id, rfl, hbound, rfl⟩)
  · next hbound =>
    obtain ⟨image?, himage, h⟩ := bind_eq_ok.mp h
    cases image? with
    | none =>
      cases h
      exact .inl ⟨rfl, rfl⟩
    | some image =>
      obtain ⟨decl, hdecl, h⟩ := bind_eq_ok.mp h
      split at h
      · next hname =>
        cases h
        exact .inr (.inr ⟨decl, hbound, ⟨image, himage, hdecl, hname⟩, rfl, rfl⟩)
      · cases h

/-- A pool that loads a class keeps those that it has. -/
theorem keeps_bind {p : Pool} {name : String} {decl : ClassDecl} (hnone : p.bound? name = none)
    (h : p.Provides lib name decl) : p.Keeps lib (p.bind decl).1 := by
  obtain ⟨image, himage, hdecl, rfl⟩ := h
  have hbindings := bindings_bind hnone
  constructor
  case classpath => rw [bind_of_none hnone, push]
  case old =>
    intro i n record hi
    refine ⟨record.type, ?_, rfl⟩
    rw [hbindings, List.getElem?_append_left (List.getElem?_eq_some_iff.mp hi).1]
    exact hi
  case new =>
    intro i n record hi hrecord
    rw [← length_bindings] at hi
    rw [hbindings, List.getElem?_append_right hi] at hrecord
    cases hk : i - p.bindings.length with
    | zero =>
      rw [hk] at hrecord
      cases hrecord
      exact ⟨⟨image, himage, hdecl, rfl⟩, rfl⟩
    | succ k =>
      rw [hk] at hrecord
      cases hrecord

/-- Looking a name up keeps the classes of the pool. -/
theorem keeps_get? {p q : Pool} {name : String} {found : Option RecordId}
    (h : p.get? lib name = .ok (found, q)) : p.Keeps lib q := by
  rcases get?_eq_ok h with ⟨_, hq⟩ | ⟨_, _, _, hq⟩ | ⟨decl, hnone, hprovides, hq, _⟩
  · rw [hq]
    exact .refl p
  · rw [hq]
    exact .refl p
  · rw [hq]
    exact keeps_bind hnone hprovides

/-- A class that was bound has its record, thawed. -/
theorem record?_bind {p : Pool} {decl : ClassDecl} (h : p.bound? decl.name = none) :
    (p.bind decl).1.record? (p.bind decl).2 = some ⟨.ofDecl decl, false⟩ := by
  rw [bind_of_none h]
  exact List.getElem?_concat_length

/-- A class that was bound stands under its name. -/
theorem bound?_bind {p : Pool} {decl : ClassDecl} (h : p.bound? decl.name = none) :
    (p.bind decl).1.bound? decl.name = some (p.bind decl).2 := by
  rw [bound?_eq_some_iff, bindings_bind h, bind_of_none h]
  refine ⟨⟨.ofDecl decl, false⟩, ?_⟩
  rw [← length_bindings]
  exact List.getElem?_concat_length

/-- A record stays as it is when a class is bound. -/
theorem record?_bind_of_some {p : Pool} {id : RecordId} {record : Record}
    (h : p.record? id = some record) (decl : ClassDecl) :
    (p.bind decl).1.record? id = some record := by
  cases hbound : p.bound? decl.name with
  | some other => rwa [bind_of_some hbound]
  | none =>
    rw [bind_of_none hbound]
    exact (List.getElem?_append_left (List.getElem?_eq_some_iff.mp h).1).trans h

/-- A name that was looked up with success is bound to what was found. -/
theorem bound?_get? {p q : Pool} {name : String} {id : RecordId}
    (h : p.get? lib name = .ok (some id, q)) : q.bound? name = some id := by
  rcases get?_eq_ok h with ⟨hfound, _⟩ | ⟨id', hfound, hbound, hq⟩ |
    ⟨decl, hbound, ⟨_, _, _, hname⟩, hq, hfound⟩
  · cases hfound
  · cases hfound
    rw [hq]
    exact hbound
  · cases hfound
    subst hq hname
    exact bound?_bind hbound

/-- Looking names up, one after the other, leads from one pool to another. -/
def Loads (lib : Library) : Pool → Pool → Prop :=
  Relation.ReflTransGen fun p q ↦ ∃ name found, p.get? lib name = .ok (found, q)

theorem loads_get? {p q : Pool} {name : String} {found : Option RecordId}
    (h : p.get? lib name = .ok (found, q)) : p.Loads lib q :=
  .single ⟨name, found, h⟩

/-- Asking for a name that must be there looks it up. -/
theorem get_eq_ok {p q : Pool} {name : String} {id : RecordId} :
    p.get lib name = .ok (id, q) ↔ p.get? lib name = .ok (some id, q) := by
  rw [get, bind_eq_ok]
  constructor
  · rintro ⟨⟨_ | found, r⟩, hget, h⟩
    · cases h
    · cases h
      exact hget
  · exact fun h ↦ ⟨(some id, q), h, rfl⟩

/-- Asking for a name that must be there keeps the classes of the pool. -/
theorem keeps_get {p q : Pool} {name : String} {id : RecordId}
    (h : p.get lib name = .ok (id, q)) : p.Keeps lib q :=
  keeps_get? (get_eq_ok.mp h)

/-- Making sure of a class looks its name up. -/
theorem loads_know {p q : Pool} {type : Ty} {result : Except Error Unit}
    (h : p.know lib type = (result, q)) : p.Loads lib q := by
  rw [know] at h
  split at h
  · cases h
    exact .refl
  · split at h
    · next hget =>
      cases h
      exact loads_get? (get_eq_ok.mp hget)
    · cases h
      exact .refl

/-- Resolving types looks names up. -/
theorem loads_resolveAll {α : Type} {read : α → Except Error Ty} {as : List α} {p q : Pool}
    {result : Except Error (List Ty)} (h : resolveAll lib read p as = (result, q)) :
    p.Loads lib q := by
  induction as generalizing p q result with
  | nil =>
    cases h
    exact .refl
  | cons a rest ih =>
    rw [resolveAll] at h
    split at h
    · cases h
      exact .refl
    · split at h
      · next hknow =>
        cases h
        exact loads_know hknow
      · next hknow =>
        have hrest := loads_know hknow
        split at h
        · next hall =>
          cases h
          exact hrest.trans (ih hall)
        · next hall =>
          cases h
          exact hrest.trans (ih hall)

/-- Looking names up keeps the classes of the pool. -/
theorem Loads.keeps {p q : Pool} (h : p.Loads lib q) : p.Keeps lib q := by
  induction h with
  | refl => exact .refl p
  | tail _ hstep ih =>
    obtain ⟨name, found, hget⟩ := hstep
    exact ih.trans (keeps_get? hget)

/-- A record stays as it is when names are looked up. -/
theorem Loads.record? {p q : Pool} (h : p.Loads lib q) {id : RecordId} {record : Record}
    (hrecord : p.record? id = some record) : q.record? id = some record := by
  induction h with
  | refl => exact hrecord
  | tail _ hstep ih =>
    obtain ⟨name, found, hget⟩ := hstep
    rcases get?_eq_ok hget with ⟨-, rfl⟩ | ⟨_, -, -, rfl⟩ | ⟨decl, -, -, rfl, -⟩
    · exact ih
    · exact ih
    · exact record?_bind_of_some ih decl

/-! ## Asking for classes -/

/-- The class that a pool has under a name, or would load for it. -/
def class? (p : Pool) (lib : Library) (name : String) : Option ClassDecl :=
  match p.get? lib name with
  | .ok (some id, q) => (q.record? id).map (·.type.decl)
  | _ => none

/-- The class under a bound name is what its record holds. -/
theorem class?_of_bound {p : Pool} {name : String} {id : RecordId} (h : p.bound? name = some id) :
    p.class? lib name = (p.record? id).map (·.type.decl) := by
  simp only [class?, get?, h]

/-- The class under a name that is not bound is what the classpath has under it. -/
theorem class?_of_unbound {p : Pool} {name : String} (h : p.bound? name = none)
    (decl : ClassDecl) : p.class? lib name = some decl ↔ p.Provides lib name decl := by
  constructor
  · intro hclass
    rw [class?] at hclass
    split at hclass
    · next id q hget =>
      rcases get?_eq_ok hget with ⟨hfound, _⟩ | ⟨_, _, hbound, _⟩ | ⟨decl', _, hprovides, hq, hid⟩
      · cases hfound
      · rw [h] at hbound
        cases hbound
      · cases hid
        obtain ⟨-, -, -, rfl⟩ := id hprovides
        rw [hq, record?_bind h, Option.map_some, Option.some.injEq] at hclass
        exact hclass ▸ hprovides
    · cases hclass
  · rintro ⟨image, himage, hdecl, rfl⟩
    have hget : p.get? lib decl.name = .ok (some (p.bind decl).2, (p.bind decl).1) := by
      simp only [get?, h, himage, hdecl, Bind.bind, Except.bind, if_true]
      rfl
    simp only [class?, hget, record?_bind h, Option.map_some]
    rfl

/-- A name that is bound stays bound to its record in a pool that is kept. -/
theorem Keeps.bound? {p q : Pool} (h : p.Keeps lib q) {name : String} {id : RecordId}
    (hbound : p.bound? name = some id) : q.bound? name = some id := by
  obtain ⟨record, hrecord⟩ := bound?_eq_some_iff.mp hbound
  obtain ⟨type, htype, _⟩ := h.old hrecord
  exact bound?_eq_some_iff.mpr ⟨_, htype⟩

/-- A pool that is kept has the same class under every name. -/
theorem Keeps.class? {p q : Pool} (h : p.Keeps lib q) (name : String) :
    q.class? lib name = p.class? lib name := by
  have hprovides : ∀ decl, q.Provides lib name decl ↔ p.Provides lib name decl := by
    intro decl
    rw [Provides, Provides, h.classpath]
  cases hp : p.bound? name with
  | some id =>
    obtain ⟨record, hold⟩ := exists_record_of_bound hp
    obtain ⟨type, htype, hdecl⟩ := h.record? hold
    rw [class?_of_bound hp, class?_of_bound (h.bound? hp), hold, htype, Option.map_some,
      Option.map_some, hdecl]
  | none =>
    cases hq : q.bound? name with
    | none =>
      apply Option.ext
      intro decl
      rw [class?_of_unbound hp, class?_of_unbound hq, hprovides]
    | some id =>
      -- The name was bound in between, to what the classpath has under it.
      obtain ⟨record, hrecord⟩ := bound?_eq_some_iff.mp hq
      have hnew : p.size ≤ id.index := by
        refine Nat.le_of_not_lt fun hlt ↦ ?_
        obtain ⟨old, hold⟩ := h.of_lt hlt hrecord
        exact bound?_eq_none_iff.mp hp id.index old hold
      rw [class?_of_bound hq, record?_eq_some_iff.mpr ⟨name, hrecord⟩, Option.map_some]
      exact ((class?_of_unbound hp _).mpr (h.new hnew hrecord).1).symm

/-- After a change of the record that a name is bound to, that name has the changed class and every
other name the class that it had. -/
theorem class?_modify {p : Pool} {target : String} {id : RecordId} {record : Record}
    {f : Record → Record} (hbound : p.bound? target = some id)
    (hrecord : p.record? id = some record) (name : String) :
    (p.modify id f).class? lib name =
      if name = target then some (f record).type.decl else p.class? lib name := by
  by_cases hname : name = target
  · rw [if_pos hname, hname, class?_of_bound ((bound?_modify p id f target).trans hbound),
      record?_modify_self, hrecord]
    rfl
  · rw [if_neg hname]
    cases hother : p.bound? name with
    | none =>
      apply Option.ext
      intro decl
      rw [class?_of_unbound hother, class?_of_unbound ((bound?_modify p id f name).trans hother)]
      rfl
    | some other =>
      have hne : id ≠ other := fun heq ↦ hname (name_eq_of_bound? hother (heq ▸ hbound))
      rw [class?_of_bound hother, class?_of_bound ((bound?_modify p id f name).trans hother),
        record?_modify_of_ne p f hne]

end Pool

/-- Finding a method by its parameters looks names up. -/
theorem Parameters.loads_find {lib : Library} {params : Parameters} {p q : Pool} {t : Editable}
    {name : String} {result : Except Error MethodId}
    (h : params.find lib p t name = (result, q)) : p.Loads lib q := by
  cases params with
  | unspecified =>
    cases h
    exact .refl
  | byDescriptor d =>
    cases h
    exact .refl
  | byName names =>
    simp only [find] at h
    split at h
    · next hall =>
      cases h
      exact Pool.loads_resolveAll hall
    · next hall =>
      cases h
      exact Pool.loads_resolveAll hall
  | byType types =>
    simp only [find] at h
    split at h
    · next hall =>
      cases h
      exact Pool.loads_resolveAll hall
    · next hall =>
      cases h
      exact Pool.loads_resolveAll hall

/-- Resolving the method of a patch looks names up, whatever it comes to. -/
theorem Patch.loads_resolve {σ : Type} {lib : Library} {patch : Patch σ} {p q : Pool}
    {t : Editable} {result : Except Error (Option MethodId)}
    (h : patch.resolve lib p t = (result, q)) : p.Loads lib q := by
  rw [resolve] at h
  split at h
  · cases h
    exact .refl
  · split at h
    · next hfind =>
      cases h
      exact Parameters.loads_find hfind
    · next hfind =>
      cases h
      exact Parameters.loads_find hfind

/-- Resolving the method of a patch keeps the classes of the pool, whatever it comes to. -/
theorem Patch.keeps_resolve {σ : Type} {lib : Library} {patch : Patch σ} {p q : Pool}
    {t : Editable} {result : Except Error (Option MethodId)}
    (h : patch.resolve lib p t = (result, q)) : p.Keeps lib q :=
  (loads_resolve h).keeps

end Hotswap
