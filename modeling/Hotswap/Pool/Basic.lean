import Hotswap.Pool.Editable
import Hotswap.Pool.Source

/-!
# Pools of types

A pool keeps one record for each class name that was asked for or inserted. A name that is not
bound is looked up once on the classpath of the pool; a bound name keeps its record. Records are
only ever added, behind those that are there, and the number of a name's record stands in an index.
-/

namespace Hotswap

/-- A type of a pool. An abort while it was held makes it unusable. -/
structure Record where
  type : Editable
  broken : Bool
  deriving DecidableEq, Repr

/-- The number of a record of a pool, counted from its first record on. -/
structure RecordId where
  index : Nat
  deriving DecidableEq, Repr, Inhabited

/-- What a pool is made of. -/
structure Holdings where
  /-- Where unbound names are looked up. -/
  classpath : Classpath
  /-- Every record, in the order in which the records came. -/
  arena : List Record
  /-- The numbers of the records by name. -/
  index : Table String RecordId
  deriving DecidableEq, Repr

namespace Holdings

/-- An arena and an index belong together: no name stands twice, and the names are numbered as the
records are. -/
structure Coupled (arena : List Record) (index : Table String RecordId) : Prop where
  nodup : index.keys.Nodup
  numbered : index.entries.map (·.2.index) = List.range arena.length

namespace Coupled

variable {arena : List Record} {index : Table String RecordId}

theorem empty : Coupled [] .empty := ⟨List.nodup_nil, rfl⟩

/-- There are as many names as records. -/
theorem length_keys (h : Coupled arena index) : index.keys.length = arena.length := by
  have := congrArg List.length h.numbered
  rwa [List.length_map, List.length_range, ← List.length_map (f := Prod.fst)] at this

/-- The name at a place is the name of the record there. -/
theorem get?_eq_some_iff (h : Coupled arena index) {name : String} {id : RecordId} :
    index.get? name = some id ↔ index.keys[id.index]? = some name := by
  have hnumber : ∀ (i : Nat) (entry : String × RecordId),
      index.entries[i]? = some entry → entry.2.index = i := by
    intro i entry hentry
    have hrange : (List.range arena.length)[i]? = some entry.2.index := by
      rw [← h.numbered, List.getElem?_map, hentry, Option.map_some]
    obtain ⟨_, hi⟩ := List.getElem?_eq_some_iff.mp hrange
    rw [← hi, List.getElem_range]
  rw [Table.get?_eq_some_iff h.nodup, Table.keys, List.getElem?_map, Option.map_eq_some_iff]
  constructor
  · intro hmem
    obtain ⟨i, hi⟩ := List.getElem?_of_mem hmem
    obtain rfl := hnumber i _ hi
    exact ⟨_, hi, rfl⟩
  · rintro ⟨⟨_, id'⟩, hentry, rfl⟩
    obtain ⟨i⟩ := id'
    obtain rfl : i = id.index := hnumber _ _ hentry
    exact List.mem_of_getElem? hentry

/-- What records hold does not matter. -/
theorem modify (h : Coupled arena index) (i : Nat) (f : Record → Record) :
    Coupled (arena.modify i f) index :=
  ⟨h.nodup, by rw [h.numbered, List.length_modify]⟩

/-- A new record comes behind the others, and so does its name. -/
theorem push (h : Coupled arena index) {name : String} (hnone : index.get? name = none)
    (record : Record) : Coupled (arena ++ [record]) (index.put name ⟨arena.length⟩) := by
  have hentries := Table.entries_put_of_get?_eq_none hnone ⟨arena.length⟩
  constructor
  · have hnew : name ∉ index.keys := by
      rw [← Table.contains_iff_mem_keys, Table.contains, hnone]
      exact Bool.false_ne_true
    rw [Table.keys, hentries, List.map_append]
    refine List.nodup_append.mpr ⟨h.nodup, by simp, fun other hother n hn ↦ ?_⟩
    obtain rfl : n = name := List.mem_singleton.mp hn
    rintro rfl
    exact hnew hother
  · rw [hentries, List.map_append, h.numbered, List.length_append]
    exact List.range_succ.symm

end Coupled

end Holdings

/-- A pool of types: records and an index of their names that belong together. -/
structure Pool extends Holdings where
  coupled : Holdings.Coupled arena index
  deriving DecidableEq, Repr

namespace Pool

/-- A pool without types. -/
def new (classpath : Classpath) : Pool := ⟨⟨classpath, [], .empty⟩, .empty⟩

/-- A pool that asks one more source, after all others. -/
def append (p : Pool) (source : Nat) : Pool := { p with classpath := p.classpath ++ [source] }

/-- The number of types. -/
def size (p : Pool) : Nat := p.arena.length

/-- The record that a name is bound to. -/
def bound? (p : Pool) (name : String) : Option RecordId := p.index.get? name

/-- Tells whether a name is bound. -/
def contains (p : Pool) (name : String) : Bool := (p.bound? name).isSome

/-- What a record holds. -/
def record? (p : Pool) (id : RecordId) : Option Record := p.arena[id.index]?

/-- The records with their names, in order. -/
def bindings (p : Pool) : List (String × Record) := p.index.keys.zip p.arena

/-- Changes what a record holds. -/
def modify (p : Pool) (id : RecordId) (f : Record → Record) : Pool :=
  { p with arena := p.arena.modify id.index f, coupled := p.coupled.modify id.index f }

/-- Puts a thawed record behind the others, under the name of its class. -/
def push (p : Pool) (decl : ClassDecl) (h : p.bound? decl.name = none) : Pool :=
  { p with
    arena := p.arena ++ [⟨.ofDecl decl, false⟩]
    index := p.index.put decl.name ⟨p.arena.length⟩
    coupled := p.coupled.push h _ }

/-- Binds the name of a class to a new record, unless it is bound. -/
def bind (p : Pool) (decl : ClassDecl) : Pool × RecordId :=
  match h : p.bound? decl.name with
  | some id => (p, id)
  | none => (p.push decl h, ⟨p.size⟩)

/-- The record of a name, loaded from the classpath if the name is not bound. -/
def get? (p : Pool) (lib : Library) (name : String) : Except Error (Option RecordId × Pool) :=
  match p.bound? name with
  | some id => .ok (some id, p)
  | none => do
    match ← lib.find name p.classpath with
    | none => pure (none, p)
    | some image => do
      let decl ← ClassDecl.decode image
      if decl.name = name then
        let (p, id) := p.bind decl
        pure (some id, p)
      else throw (.malformed (.misplacedImage name decl.name))

/-- The record of a name; a name that no source provides is an error. -/
def get (p : Pool) (lib : Library) (name : String) : Except Error (RecordId × Pool) := do
  match ← p.get? lib name with
  | (some id, p) => pure (id, p)
  | (none, _) => throw (.typeNotFound name)

/-- Binds the name of a class that is not bound. -/
def insert (p : Pool) (decl : ClassDecl) : Except Error (RecordId × Pool) :=
  if p.contains decl.name then .error (.duplicateMember decl.name "<type>")
  else
    let (p, id) := p.bind decl
    .ok (id, p)

end Pool

end Hotswap
