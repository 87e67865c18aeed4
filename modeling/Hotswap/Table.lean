/-!
# Tables

Values under keys, in the order in which the keys first came. Putting a value under a key that is
there already replaces the old value in its place.
-/

namespace Hotswap

/-- Values under keys. -/
structure Table (K V : Type) where
  entries : List (K × V)
  deriving DecidableEq, Repr

namespace Table

variable {K V : Type} [DecidableEq K]

/-- The table without entries. -/
def empty : Table K V := ⟨[]⟩

/-- The value under a key. -/
def get? (t : Table K V) (k : K) : Option V := (t.entries.find? fun e ↦ e.1 = k).map Prod.snd

/-- Tells whether there is a value under a key. -/
def contains (t : Table K V) (k : K) : Bool := (t.get? k).isSome

/-- The number of keys. -/
def size (t : Table K V) : Nat := t.entries.length

/-- The keys, in the order in which they first came. -/
def keys (t : Table K V) : List K := t.entries.map Prod.fst

/-- Replaces the value of the first entry with a key, or appends an entry. -/
def putEntry (k : K) (v : V) : List (K × V) → List (K × V)
  | [] => [(k, v)]
  | e :: rest => if e.1 = k then (k, v) :: rest else e :: putEntry k v rest

/-- Puts a value under a key. -/
def put (t : Table K V) (k : K) (v : V) : Table K V := ⟨putEntry k v t.entries⟩

/-- A table of entries of which the last one with a key counts. -/
def ofList (entries : List (K × V)) : Table K V :=
  entries.foldl (fun t e ↦ t.put e.1 e.2) empty

/-- Nothing is under a key of the empty table. -/
@[simp] theorem get?_empty (k : K) : (empty : Table K V).get? k = none := rfl

/-- A key holds what was put under it last, and the other keys hold what they held. -/
theorem get?_put (t : Table K V) (k k' : K) (v : V) :
    (t.put k v).get? k' = if k = k' then some v else t.get? k' := by
  obtain ⟨es⟩ := t
  simp only [put, get?]
  induction es with
  | nil => by_cases h : k = k' <;> simp [putEntry, h]
  | cons e es ih =>
    by_cases he : e.1 = k
    · subst he
      by_cases h : e.1 = k' <;> simp [putEntry, h]
    · by_cases h' : e.1 = k'
      · subst h'
        simp [putEntry, he, Ne.symm he]
      · simpa [putEntry, he, h'] using ih

/-- A table contains its keys. -/
theorem contains_iff_mem_keys {t : Table K V} {k : K} : t.contains k = true ↔ k ∈ t.keys := by
  obtain ⟨es⟩ := t
  simp only [contains, get?, keys, Option.isSome_map, List.find?_isSome, decide_eq_true_eq,
    List.mem_map]

/-- Putting adds its key. -/
theorem mem_keys_put {t : Table K V} {k k' : K} {v : V} :
    k' ∈ (t.put k v).keys ↔ k' = k ∨ k' ∈ t.keys := by
  rw [← contains_iff_mem_keys, ← contains_iff_mem_keys, contains, contains, get?_put]
  by_cases h : k = k'
  · simp [h]
  · simp [h, Ne.symm h]

/-- Putting a value under a key that is there leaves the keys as they are. -/
theorem mem_keys_put_of_mem {t : Table K V} {k k' : K} {v : V} (h : k ∈ t.keys) :
    k' ∈ (t.put k v).keys ↔ k' ∈ t.keys := by
  rw [mem_keys_put]
  constructor
  · rintro (rfl | hother)
    · exact h
    · exact hother
  · exact .inr

/-- What is put under a new key comes behind all other entries. -/
theorem entries_put_of_get?_eq_none {t : Table K V} {k : K} (h : t.get? k = none) (v : V) :
    (t.put k v).entries = t.entries ++ [(k, v)] := by
  obtain ⟨es⟩ := t
  simp only [put, get?, Option.map_eq_none_iff] at h ⊢
  induction es with
  | nil => rfl
  | cons e es ih =>
    rw [List.find?_cons] at h
    split at h
    · cases h
    · next he => rw [putEntry, if_neg (of_decide_eq_false he), ih h, List.cons_append]

/-- Putting a value under a new key adds one entry. -/
theorem size_put_of_get?_eq_none {t : Table K V} {k : K} (h : t.get? k = none) (v : V) :
    (t.put k v).size = t.size + 1 := by
  rw [size, entries_put_of_get?_eq_none h, List.length_append]
  rfl

/-- If no key comes twice, a key holds the value of its entry. -/
theorem get?_eq_some_iff {t : Table K V} (h : t.keys.Nodup) {k : K} {v : V} :
    t.get? k = some v ↔ (k, v) ∈ t.entries := by
  obtain ⟨es⟩ := t
  simp only [get?, keys] at h ⊢
  induction es with
  | nil => simp
  | cons e es ih =>
    obtain ⟨hnew, hrest⟩ := List.nodup_cons.mp h
    rw [List.find?_cons, List.mem_cons]
    by_cases he : e.1 = k
    · have hother : (k, v) ∉ es := fun hmem ↦ hnew (he ▸ List.mem_map_of_mem hmem)
      simp [he, hother, Prod.ext_iff, eq_comm]
    · have hne : (k, v) ≠ e := fun heq ↦ he (heq ▸ rfl)
      simp [he, hne, ih hrest]

/-- The keys of a table of entries are those of the entries. -/
theorem mem_keys_ofList {entries : List (K × V)} {k : K} :
    k ∈ (ofList entries).keys ↔ k ∈ entries.map Prod.fst := by
  have hfold : ∀ t : Table K V, k ∈ (entries.foldl (fun t e ↦ t.put e.1 e.2) t).keys ↔
      k ∈ t.keys ∨ k ∈ entries.map Prod.fst := by
    induction entries with
    | nil => simp
    | cons e rest ih =>
      intro t
      rw [List.foldl_cons, ih, mem_keys_put, List.map_cons, List.mem_cons, or_assoc, or_left_comm]
  rw [ofList, hfold empty]
  simp [keys, empty]

end Table

end Hotswap
