import Hotswap.Proofs.AtomicLookups
import Hotswap.Proofs.ScriptHistories
import Hotswap.Session.Run
import Mathlib.Data.Set.Card

/-!
# Pools as registries

In a pool that has come about by what can be done with pools, names and records correspond one to
one: a record stands under the name of its class and under no other one. A name keeps its record for
good, and what is loaded for it comes from the first source that has an image of it. Sources are
asked in the order in which they were appended.
-/

namespace Hotswap

/-- The image of a name is that of the first source, in order, that has one. -/
theorem Library.find_eq_some {lib : Library} {name : String} {classpath : Classpath}
    {image : List UInt8} (h : lib.find name classpath = .ok (some image)) :
    ∃ before i after source, classpath = before ++ i :: after ∧
      (∀ j ∈ before, ∀ s, lib.sources[j]? = some s → s.find name = .ok none) ∧
      lib.sources[i]? = some source ∧ source.find name = .ok (some image) := by
  induction classpath with
  | nil => cases h
  | cons i rest ih =>
    rw [find] at h
    split at h
    · next hmissing =>
      obtain ⟨before, j, after, source, rfl, hbefore, hsource⟩ := ih h
      refine ⟨i :: before, j, after, source, rfl, fun k hk s hs ↦ ?_, hsource⟩
      rcases List.mem_cons.mp hk with rfl | hk
      · rw [hmissing] at hs
        cases hs
      · exact hbefore k hk s hs
    · next source hsource =>
      split at h
      · next hnone =>
        obtain ⟨before, j, after, source', rfl, hbefore, hsource'⟩ := ih h
        refine ⟨i :: before, j, after, source', rfl, fun k hk s hs ↦ ?_, hsource'⟩
        rcases List.mem_cons.mp hk with rfl | hk
        · obtain rfl := Option.some.inj (hsource.symm.trans hs)
          exact hnone
        · exact hbefore k hk s hs
      · next hfound =>
        cases h
        exact ⟨[], i, rest, source, rfl, fun _ hk ↦ absurd hk List.not_mem_nil, hsource, hfound⟩
      · cases h

namespace Pool

variable {p q : Pool} {lib : Library}

/-- Every record stands under the name of its class. -/
def Named (p : Pool) : Prop := ∀ b ∈ p.bindings, b.2.type.decl.name = b.1

theorem named_new (classpath : Classpath) : (new classpath).Named := List.forall_mem_nil _

/-- Every step leaves the names on the records. -/
theorem Step.named (h : p.Step q) (hp : p.Named) : q.Named := by
  intro b hb
  cases h with
  | append source => exact hp b hb
  | @bind decl hnone =>
    rw [bindings_bind hnone] at hb
    rcases List.mem_append.mp hb with hb | hb
    · exact hp b hb
    · rw [List.mem_singleton.mp hb]
      rfl
  | @modify id f hf =>
    obtain ⟨i, hi⟩ := List.getElem?_of_mem hb
    rw [getElem?_modify, Option.map_eq_some_iff] at hi
    obtain ⟨old, hold, rfl⟩ := hi
    have hname := hp old (List.mem_of_getElem? hold)
    split
    · next hid =>
      have hrecord : p.record? id = some old.2 :=
        record?_eq_some_iff.mpr ⟨old.1, by rw [hid]; exact hold⟩
      exact (hf old.2 hrecord).1.trans hname
    · exact hname

theorem Evolves.named (h : p.Evolves q) (hp : p.Named) : q.Named := by
  induction h with
  | refl => exact hp
  | tail _ hstep ih => exact hstep.named ih

/-- A record is bound to the name of its class and to no other one. -/
theorem Named.bound?_iff (hp : p.Named) {id : RecordId} {record : Record}
    (hrecord : p.record? id = some record) {name : String} :
    p.bound? name = some id ↔ name = record.type.decl.name := by
  obtain ⟨name', hname'⟩ := record?_eq_some_iff.mp hrecord
  obtain rfl : record.type.decl.name = name' := hp _ (List.mem_of_getElem? hname')
  have hbound : p.bound? record.type.decl.name = some id := bound?_eq_some_iff.mpr ⟨record, hname'⟩
  constructor
  · exact fun h ↦ name_eq_of_bound? h hbound
  · rintro rfl
    exact hbound

/-- There are as many records as bound names. -/
theorem size_eq_ncard (p : Pool) : p.size = {name | p.contains name = true}.ncard := by
  have hset : {name | p.contains name = true} = (p.index.keys.toFinset : Set String) := by
    ext name
    rw [Set.mem_ofPred_eq, List.coe_toFinset, Set.mem_ofPred_eq]
    exact Table.contains_iff_mem_keys
  rw [hset, Set.ncard_coe_finset, List.toFinset_card_of_nodup p.coupled.nodup,
    p.coupled.length_keys, size]

end Pool

/-! ### Commands that ask a pool -/

/-- A command asks a pool for a class or inserts one. -/
def Command.AsksPool : Command → Prop
  | .poolGet _ _ | .poolGetOrNone _ _ | .poolInsert _ _ => True
  | _ => False

namespace Session

variable {s s' : Session}

theorem setPool_self {i : Nat} {p : Pool} (h : s.world.host.pools[i]? = some p) :
    s.setPool i p = s := by
  obtain ⟨hlt, hp⟩ := Array.getElem?_eq_some_iff.mp h
  have hpools : s.world.host.pools.setIfInBounds i p = s.world.host.pools := by
    rw [Array.setIfInBounds_def, dif_pos hlt, ← hp, Array.set_getElem_self]
  simp only [setPool, setHost, hpools]

/-- Nothing was answered, or an error. -/
def Unanswered (r : Except Failure Answer) : Prop := r = .ok .absent ∨ ∃ e, r = .error e

/-- A record that was looked up stays unanswered only if it was bound before. -/
theorem recordAnswer_unchanged {i : Nat} {name : String} {id : RecordId} {p q : Pool}
    {r : Except Failure Answer} (hp : s.world.host.pools[i]? = some p)
    (hget : p.get? s.library name = .ok (some id, q)) (hr : Unanswered r)
    (h : s.recordAnswer i name id q = (r, s')) : s' = s := by
  rcases Pool.get?_eq_ok hget with ⟨hfound, -⟩ | ⟨_, -, -, rfl⟩ |
    ⟨decl, hnone, ⟨_, _, _, rfl⟩, rfl, hid⟩
  · cases hfound
  · rw [recordAnswer, setPool_self hp] at h
    simp only [found] at h
    split at h
    · split at h <;> cases h <;> rfl
    · cases h
      rfl
  · cases hid
    simp only [recordAnswer, found, Pool.record?_bind hnone] at h
    cases h
    rcases hr with hr | ⟨e, hr⟩ <;> cases hr

/-- A command that asks a pool and stays unanswered changes nothing at all. -/
theorem unchanged_of_unanswered {c : Command} (hc : c.AsksPool) {r : Except Failure Answer}
    (hr : Unanswered r) (h : s.exec c = (r, s')) : s' = s := by
  cases c with
  | poolGet i name =>
    simp only [exec, onPool, found] at h
    split at h
    · next p hp =>
      simp only [whenOk] at h
      split at h
      · next found hget => exact recordAnswer_unchanged hp (Pool.get_eq_ok.mp hget) hr h
      · cases h
        rfl
    · cases h
      rfl
  | poolGetOrNone i name =>
    simp only [exec, onPool, found] at h
    split at h
    · next p hp =>
      simp only [whenOk] at h
      split at h
      · next looked hget =>
        obtain ⟨id?, q⟩ := looked
        cases id? with
        | some id => exact recordAnswer_unchanged hp hget hr h
        | none =>
          cases h
          rfl
      · cases h
        rfl
    · cases h
      rfl
  | poolInsert i decl =>
    simp only [exec, onPool, found] at h
    split at h
    · next p hp =>
      simp only [whenOk] at h
      split at h
      · next inserted hinsert =>
        -- The class was bound, so its record is there and is answered.
        obtain ⟨id, q⟩ := inserted
        obtain ⟨hnone, hbind⟩ := Pool.insert_eq_ok.mp hinsert
        have hrecord := Pool.record?_bind hnone
        rw [← hbind] at hrecord
        simp only [hrecord] at h
        cases h
        rcases hr with hr | ⟨e, hr⟩ <;> cases hr
      · cases h
        rfl
    · cases h
      rfl
  | _ => exact hc.elim

end Session

namespace Pool

variable {p : Pool}

/-- A pool is a registry, whatever was done with it. Names and records correspond one to one, and a
record stands under the name of its class. A name that is bound keeps its record, whatever comes
then. The classpath holds the sources in the order in which they were appended, and goes on so. A
name that is not bound and is looked up with success gets a thawed record of the class whose image
is that of the first source which has one. Inserting succeeds exactly for names that are not bound.
A request that gets an error or nothing leaves the arena and the index as they were, though it
changes them in place, and one that gets a record leaves them as the pool then has them. A command
of a session that asks a pool and gets an error or nothing changes nothing at all. -/
theorem Leads.keeps_registry {classpath : Classpath} (h : (new classpath).Leads p) :
    (p.size = {name | p.contains name = true}.ncard ∧
      (∀ name id, p.bound? name = some id → ∃ record, p.record? id = some record) ∧
      ∀ id record, p.record? id = some record →
        ∀ name, p.bound? name = some id ↔ name = record.type.decl.name) ∧
    (∀ q, p.Leads q → ∀ name id, p.bound? name = some id →
      q.bound? name = some id ∧ ∀ lib, q.get lib name = .ok (id, q)) ∧
    ((∀ source, (p.append source).classpath = p.classpath ++ [source]) ∧
      (∀ q, p.Leads q → p.classpath <+: q.classpath) ∧
      ∃ sources, p.classpath = classpath ++ sources ∧
        ∀ before source after, sources = before ++ source :: after →
          ∃ q, (new classpath).Evolves q ∧ q.classpath = classpath ++ before ∧
            (q.append source).Evolves p) ∧
    (∀ lib name id q, p.bound? name = none →
      p.get? lib name = .ok (some id, q) ∨ p.get lib name = .ok (id, q) →
      ∃ decl image before i after source, (q, id) = p.bind decl ∧ q.bound? name = some id ∧
        q.record? id = some ⟨.ofDecl decl, false⟩ ∧ decl.name = name ∧
        ClassDecl.decode image = .ok decl ∧ p.classpath = before ++ i :: after ∧
        (∀ j ∈ before, ∀ s, lib.sources[j]? = some s → s.find name = .ok none) ∧
        lib.sources[i]? = some source ∧ source.find name = .ok (some image)) ∧
    (∀ decl, (∃ id q, p.insert decl = .ok (id, q)) ↔ p.bound? decl.name = none) ∧
    (∀ decl id q, p.insert decl = .ok (id, q) → (q, id) = p.bind decl ∧
      q.bound? decl.name = some id ∧ q.record? id = some ⟨.ofDecl decl, false⟩) ∧
    (∀ lib name q, p.get? lib name = .ok (none, q) → q = p) ∧
    (∀ lib (request : Request) (outcome : Except Error (Option RecordId)) (parts : Holdings),
      (request.inPlace lib).exec p.toHoldings = (outcome, parts) →
        (outcome = .ok none ∨ (∃ e, outcome = .error e) → parts = p.toHoldings) ∧
        ∀ found, outcome = .ok found →
          ∃ q, request.answer lib p = .ok (found, q) ∧ parts = q.toHoldings) ∧
    ∀ (s s' : Session) (c : Command) (r : Except Failure Answer), c.AsksPool →
      Session.Unanswered r → s.exec c = (r, s') → s' = s := by
  have hp : p.Named := h.evolves.named (named_new classpath)
  refine ⟨⟨p.size_eq_ncard, fun _ _ ↦ exists_record_of_bound, fun _ _ hrecord _ ↦
      hp.bound?_iff hrecord⟩, ?_, ⟨fun _ ↦ rfl, fun q hq ↦ ?_, h.evolves.classpath⟩, ?_, ?_, ?_,
    fun _ _ _ ↦ eq_of_get?_none, fun lib request outcome parts hexec ↦
      ⟨Request.unchanged hexec, fun found hfound ↦ ?_⟩,
    fun s s' c r hc hr ↦ Session.unchanged_of_unanswered hc hr⟩
  · intro q hq name id hbound
    have hbound' := hq.evolves.bound? hbound
    exact ⟨hbound', fun lib ↦ get_eq_ok.mpr (get?_of_bound hbound')⟩
  · obtain ⟨sources, hsources, -⟩ := hq.evolves.classpath
    exact ⟨sources, hsources.symm⟩
  · intro lib name id q hnone hfound
    have hget : p.get? lib name = .ok (some id, q) := hfound.elim (·) get_eq_ok.mp
    rcases get?_eq_ok hget with ⟨hmissing, -⟩ | ⟨_, -, hbound, -⟩ |
      ⟨decl, -, ⟨image, himage, hdecode, rfl⟩, rfl, hid⟩
    · cases hmissing
    · rw [hnone] at hbound
      cases hbound
    · cases hid
      obtain ⟨before, i, after, source, hsplit, hbefore, hsource⟩ := Library.find_eq_some himage
      exact ⟨decl, image, before, i, after, source, rfl, bound?_bind hnone, record?_bind hnone,
        rfl, hdecode, hsplit, hbefore, hsource⟩
  · intro decl
    constructor
    · rintro ⟨id, q, hinsert⟩
      exact (insert_eq_ok.mp hinsert).1
    · intro hnone
      exact ⟨_, _, insert_eq_ok.mpr ⟨hnone, rfl⟩⟩
  · intro decl id q hinsert
    obtain ⟨hnone, hbind⟩ := insert_eq_ok.mp hinsert
    obtain ⟨rfl, rfl⟩ := Prod.mk.inj hbind
    exact ⟨rfl, bound?_bind hnone, record?_bind hnone⟩
  · subst hfound
    exact Request.exec_inPlace_eq_ok_iff.mp hexec

/-- The class that was patched keeps its record, without sources as well, and its only source stays
the first one. No other class is inserted under its name, and trying to leaves all parts of the pool
alone. -/
theorem patchedPool_registry :
    (new [0]).Leads patchedPool ∧
      patchedPool.size = {name | patchedPool.contains name = true}.ncard ∧
      patchedPool.bound? "k.P" = some ⟨1⟩ ∧
      (∀ q, patchedPool.Leads q → q.get ⟨#[]⟩ "k.P" = .ok (⟨1⟩, q) ∧ [0] <+: q.classpath) ∧
      (¬ ∃ id q, patchedPool.insert (Operation.sampleClass 3) = .ok (id, q)) ∧
      (((Request.insert (Operation.sampleClass 3)).inPlace ⟨#[]⟩).exec patchedPool.toHoldings).2 =
        patchedPool.toHoldings := by
  have hleads := leads_patchedPool
  have hbound : patchedPool.bound? "k.P" = some ⟨1⟩ := by cbv
  have hclasspath : patchedPool.classpath = [0] := by cbv
  obtain ⟨⟨hsize, -, -⟩, hkept, ⟨-, horder, -⟩, -, hinsert, -, -, hrequest, -⟩ :=
    hleads.keeps_registry
  have hrefused : patchedPool.insert (Operation.sampleClass 3) =
      .error (.duplicateMember "k.P" "<type>") := by
    rw [insert, contains, show (Operation.sampleClass 3).name = "k.P" from rfl, hbound]
    rfl
  refine ⟨hleads, hsize, hbound, fun q hq ↦ ⟨(hkept q hq "k.P" ⟨1⟩ hbound).2 _, ?_⟩, ?_, ?_⟩
  · exact hclasspath ▸ horder q hq
  · rw [hinsert, show (Operation.sampleClass 3).name = "k.P" from rfl, hbound]
    exact Option.some_ne_none _
  · have hfailed : (((Request.insert (Operation.sampleClass 3)).inPlace ⟨#[]⟩).exec
        patchedPool.toHoldings).1 = .error (.duplicateMember "k.P" "<type>") := by
      rw [Request.exec_inPlace, Request.answer, hrefused]
      rfl
    exact (hrequest _ _ _ _ Prod.mk.eta.symm).1 (.inr ⟨_, hfailed⟩)

end Pool

end Hotswap
