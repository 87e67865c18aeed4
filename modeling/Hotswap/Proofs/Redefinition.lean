import Mathlib
import Hotswap.Patch.Bridge
import Hotswap.Proofs.InPlace

/-!
# What a redefinition does

A batch is taken as a whole or not at all. It is taken when every image of it can be read and keeps
the schema that the class has before the batch. Because taking a definition keeps the schema, it
makes no difference that a class occurs several times: its last definition stays, and every one of
them counts. Nothing but definitions and counts changes. The machine is changed in place, by one
loop that checks and one that swaps, and no check comes after a swap.
-/

namespace Hotswap

theorem sameMembers_eq_true_iff {α : Type} [DecidableEq α] {as bs : List α} :
    sameMembers as bs = true ↔ ∀ a, a ∈ as ↔ a ∈ bs := by
  rw [sameMembers, Bool.and_eq_true, List.all_eq_true, List.all_eq_true]
  simp only [List.contains_iff_mem]
  constructor
  · rintro ⟨hsub, hsup⟩ a
    exact ⟨hsub a, hsup a⟩
  · intro h
    exact ⟨fun a ↦ (h a).mp, fun a ↦ (h a).mpr⟩

/-! ### Schemas -/

namespace ClassDecl

/-- Two definitions agree on everything but code: on name, superclass and flags, on which fields
there are, by name, descriptor and whether they are static, and on which methods there are, by name
and descriptor. -/
structure SameSchema (current new : ClassDecl) : Prop where
  name : new.name = current.name
  superName : new.superName = current.superName
  flags : new.flags = current.flags
  fields : ∀ s, s ∈ new.fieldSchema ↔ s ∈ current.fieldSchema
  methods : ∀ s, s ∈ new.methodSchema ↔ s ∈ current.methodSchema

theorem SameSchema.refl (c : ClassDecl) : c.SameSchema c :=
  ⟨rfl, rfl, rfl, fun _ ↦ Iff.rfl, fun _ ↦ Iff.rfl⟩

theorem SameSchema.symm {c d : ClassDecl} (h : c.SameSchema d) : d.SameSchema c :=
  ⟨h.name.symm, h.superName.symm, h.flags.symm, fun s ↦ (h.fields s).symm,
    fun s ↦ (h.methods s).symm⟩

theorem SameSchema.trans {c d e : ClassDecl} (h : c.SameSchema d) (h' : d.SameSchema e) :
    c.SameSchema e :=
  ⟨h'.name.trans h.name, h'.superName.trans h.superName, h'.flags.trans h.flags,
    fun s ↦ (h'.fields s).trans (h.fields s), fun s ↦ (h'.methods s).trans (h.methods s)⟩

/-- No change of schema is found exactly when there is none. -/
theorem schemaChange?_eq_none_iff {current new : ClassDecl} :
    current.schemaChange? new = none ↔ current.SameSchema new := by
  constructor
  · intro h
    rw [schemaChange?] at h
    split at h
    · cases h
    · next hname =>
      split at h
      · cases h
      · next hsuper =>
        split at h
        · cases h
        · next hflags =>
          split at h
          · cases h
          · next hfields =>
            split at h
            · cases h
            · next hmethods =>
              rw [Bool.not_eq_true, Bool.not_eq_false', sameMembers_eq_true_iff] at hfields hmethods
              exact ⟨Decidable.not_not.mp hname, Decidable.not_not.mp hsuper,
                Decidable.not_not.mp hflags, hfields, hmethods⟩
  · intro h
    rw [schemaChange?, if_neg (Decidable.not_not.mpr h.name),
      if_neg (Decidable.not_not.mpr h.superName), if_neg (Decidable.not_not.mpr h.flags),
      sameMembers_eq_true_iff.mpr h.fields, sameMembers_eq_true_iff.mpr h.methods]
    rfl

end ClassDecl

/-! ### Replacements -/

namespace Machine

variable {m m' : Machine}

/-- A machine reads a class from an image that can be decoded and, if the machine verifies, holds a
class that verifies. -/
theorem readClass_eq_ok {image : List UInt8} {decl : ClassDecl} :
    m.readClass image = .ok decl ↔ ClassDecl.decode image = .ok decl ∧
      (m.config.verifyOnDefine = true → decl.verify = .ok ()) := by
  rw [readClass, bind_eq_ok]
  constructor
  · rintro ⟨d, hdecode, h⟩
    split at h
    · obtain ⟨⟨⟩, hverify, h⟩ := bind_eq_ok.mp h
      cases h
      exact ⟨hdecode, fun _ ↦ hverify⟩
    · next hno =>
      cases h
      exact ⟨hdecode, fun hyes ↦ absurd hyes hno⟩
  · rintro ⟨hdecode, hverify⟩
    refine ⟨decl, hdecode, ?_⟩
    split
    · next hyes =>
      rw [hverify hyes]
      rfl
    · rfl

/-- A machine takes a definition from an image for one of its classes: the image is readable, and
its class keeps the schema. -/
def Takes (m : Machine) (u : Replacement) (decl : ClassDecl) : Prop :=
  ClassDecl.decode u.image = .ok decl ∧ (m.config.verifyOnDefine = true → decl.verify = .ok ()) ∧
    (m.cls u.cls).decl.SameSchema decl

theorem checkReplacement_eq_ok {u : Replacement} {decl : ClassDecl} :
    m.checkReplacement u = .ok decl ↔ m.Takes u decl := by
  rw [checkReplacement, bind_eq_ok]
  constructor
  · rintro ⟨d, hread, h⟩
    obtain ⟨hdecode, hverify⟩ := readClass_eq_ok.mp hread
    dsimp only at h
    split at h
    · cases h
    · next hsame =>
      cases h
      exact ⟨hdecode, hverify, ClassDecl.schemaChange?_eq_none_iff.mp hsame⟩
  · rintro ⟨hdecode, hverify, hsame⟩
    refine ⟨decl, readClass_eq_ok.mpr ⟨hdecode, hverify⟩, ?_⟩
    dsimp only
    rw [ClassDecl.schemaChange?_eq_none_iff.mpr hsame]
    rfl

/-! ### Swapping definitions -/

/-- There is a class of a number. -/
def Has (m : Machine) (id : ClassId) : Prop := id.index < m.classes.size

theorem cls_of_not_has {id : ClassId} (hid : ¬ m.Has id) : m.cls id = default := by
  rw [cls, Array.getD_eq_getD_getElem?, Array.getElem?_eq_none (Nat.le_of_not_lt hid)]
  rfl

theorem cls_modifyClass_self {id : ClassId} (h : m.Has id) (f : LiveClass → LiveClass) :
    (m.modifyClass id f).cls id = f (m.cls id) := by
  rw [Has] at h
  simp [cls, modifyClass, Array.getD_eq_getD_getElem?, Array.getElem_modify, h]

theorem cls_modifyClass_of_ne {id id' : ClassId} (h : id ≠ id') (f : LiveClass → LiveClass) :
    (m.modifyClass id f).cls id' = m.cls id' := by
  have hne : id.index ≠ id'.index := by
    intro he
    exact h (congrArg ClassId.mk he)
  simp [cls, modifyClass, Array.getD_eq_getD_getElem?, Array.getElem?_modify, hne]

/-- Of two changes of one class the second works on what the first has made. -/
theorem modifyClass_modifyClass (m : Machine) (id : ClassId) (f g : LiveClass → LiveClass) :
    (m.modifyClass id f).modifyClass id g = m.modifyClass id (g ∘ f) := by
  have hclasses : (m.classes.modify id.index f).modify id.index g =
      m.classes.modify id.index (g ∘ f) := by
    refine Array.ext (by simp only [Array.size_modify]) fun i hi hi' ↦ ?_
    simp only [Array.getElem_modify]
    split <;> rfl
  rw [modifyClass, modifyClass, hclasses]
  rfl

@[simp] theorem size_classes_modifyClass (m : Machine) (id : ClassId)
    (f : LiveClass → LiveClass) : (m.modifyClass id f).classes.size = m.classes.size :=
  Array.size_modify

@[simp] theorem has_modifyClass_iff {f : LiveClass → LiveClass} {id id' : ClassId} :
    (m.modifyClass id f).Has id' ↔ m.Has id' := by
  rw [Has, Has, size_classes_modifyClass]

/-- What holds of a changed class and of the others holds of every class. -/
theorem modifyClass_cases {P : LiveClass → Prop} {f : LiveClass → LiveClass} {id : ClassId}
    (id' : ClassId) (hchanged : id = id' → P (f (m.cls id))) (hold : P (m.cls id')) :
    P ((m.modifyClass id f).cls id') := by
  by_cases hne : id = id'
  · by_cases hid : m.Has id'
    · rw [hne, cls_modifyClass_self hid]
      rw [hne] at hchanged
      exact hchanged rfl
    · have hnone : ¬ (m.modifyClass id f).Has id' := by rwa [has_modifyClass_iff]
      rw [cls_of_not_has hnone]
      rwa [cls_of_not_has hid] at hold
  · rwa [cls_modifyClass_of_ne hne]

/-- Swaps the definitions of classes in turn. -/
def swapAll (m : Machine) (changes : List (Replacement × ClassDecl)) : Machine :=
  changes.foldl (fun m (u, decl) ↦ m.swap u.cls decl) m

@[simp] theorem swapAll_cons (m : Machine) (u : Replacement) (decl : ClassDecl)
    (rest : List (Replacement × ClassDecl)) :
    m.swapAll ((u, decl) :: rest) = (m.swap u.cls decl).swapAll rest := rfl

/-- Swapping definitions changes the classes of a machine only. -/
theorem swapAll_eq (m : Machine) (changes : List (Replacement × ClassDecl)) :
    m.swapAll changes = { m with classes := (m.swapAll changes).classes } := by
  induction changes generalizing m with
  | nil => rfl
  | cons c rest ih =>
    rw [swapAll_cons, ih]
    rfl

@[simp] theorem size_classes_swapAll (m : Machine) (changes : List (Replacement × ClassDecl)) :
    (m.swapAll changes).classes.size = m.classes.size := by
  induction changes generalizing m with
  | nil => rfl
  | cons c rest ih => rw [swapAll_cons, ih, swap, size_classes_modifyClass]

/-- A class gets the last of its definitions, counts each of them and keeps everything else. -/
theorem cls_swapAll {id : ClassId} (hid : m.Has id)
    (changes : List (Replacement × ClassDecl)) :
    (m.swapAll changes).cls id =
      { m.cls id with
        decl := (((changes.filter (·.1.cls = id)).getLast?).map Prod.snd).getD (m.cls id).decl
        redefinitions := (m.cls id).redefinitions +
          UInt32.ofNat (changes.filter (·.1.cls = id)).length } := by
  induction changes generalizing m with
  | nil => simp [swapAll]
  | cons c rest ih =>
    obtain ⟨u, decl⟩ := c
    have hid' : (m.swap u.cls decl).Has id := by rwa [swap, has_modifyClass_iff]
    rw [swapAll_cons, ih hid']
    by_cases hu : u.cls = id
    · have hself : (m.swap u.cls decl).cls id =
          { m.cls id with decl, redefinitions := (m.cls id).redefinitions + 1 } := by
        rw [hu, swap, cls_modifyClass_self hid]
      rw [hself, List.filter_cons_of_pos (by simpa using hu), List.getLast?_cons, List.length_cons,
        Nat.add_comm _ 1, UInt32.ofNat_add, ← UInt32.add_assoc]
      cases hlast : (rest.filter (·.1.cls = id)).getLast? <;> rfl
    · have hother : (m.swap u.cls decl).cls id = m.cls id := cls_modifyClass_of_ne hu _
      rw [hother, List.filter_cons_of_neg (by simpa using hu)]

/-- A class that is not among the changes stays as it is. -/
theorem cls_swapAll_of_ne {id : ClassId} {changes : List (Replacement × ClassDecl)}
    (h : ∀ c ∈ changes, c.1.cls ≠ id) : (m.swapAll changes).cls id = m.cls id := by
  induction changes generalizing m with
  | nil => rfl
  | cons c rest ih =>
    rw [swapAll_cons, ih fun d hd ↦ h d (.tail _ hd), swap,
      cls_modifyClass_of_ne (h c (.head _))]

/-! ### Batches -/

end Machine

/-- A bridge that is attached to its machine redefines as the machine does, and hands the machine
back as it was where that fails. -/
theorem Bridge.redefine_of_capability {b : Bridge} (h : b.capability = some Machine.capability)
    (m : Machine) (batch : List Replacement) :
    b.redefine m batch =
      match m.redefine batch with
      | .ok (ids, m') => (.ok ids, b, m')
      | .error e => (.error (.redefinition e), b, m) := by
  cases batch with
  | nil => rfl
  | cons u rest =>
    cases hresult : m.redefine (u :: rest) with
    | ok result => simp [redefine, obtain, h, Machine.capability, hresult]
    | error e => simp [redefine, obtain, h, Machine.capability, hresult]

namespace Machine

variable {m m' : Machine}

/-- The effect of a batch: each class of the batch has the definition of its last unit there and has
counted all its units; all other things are as they were. -/
structure Redefined (m : Machine) (batch : List Replacement) (m' : Machine) : Prop where
  only_classes : m' = { m with classes := m'.classes }
  size : m'.classes.size = m.classes.size
  others : ∀ id, (∀ u ∈ batch, u.cls ≠ id) → m'.cls id = m.cls id
  replaced : ∀ before u after, batch = before ++ u :: after → (∀ v ∈ after, v.cls ≠ u.cls) →
    ∃ decl, ClassDecl.decode u.image = .ok decl ∧
      m'.cls u.cls = { m.cls u.cls with
        decl
        redefinitions := (m.cls u.cls).redefinitions +
          UInt32.ofNat (batch.countP (·.cls = u.cls)) }

/-- Swapping in the definitions of a batch has that effect. -/
theorem redefined_swapAll {changes : List (Replacement × ClassDecl)}
    (hin : ∀ c ∈ changes, m.Has c.1.cls)
    (hdecode : ∀ c ∈ changes, ClassDecl.decode c.1.image = .ok c.2) :
    m.Redefined (changes.map Prod.fst) (m.swapAll changes) := by
  constructor
  case only_classes => exact swapAll_eq m changes
  case size => exact size_classes_swapAll m changes
  case others =>
    intro id hother
    exact cls_swapAll_of_ne fun c hc ↦ hother c.1 (List.mem_map_of_mem hc)
  case replaced =>
    intro before u after hbatch hlast
    obtain ⟨front, back, rfl, -, hback⟩ := List.map_eq_append_iff.mp hbatch
    obtain ⟨⟨w, decl⟩, rest, rfl, hw, rfl⟩ := List.map_eq_cons_iff.mp hback
    obtain rfl : w = u := hw
    have hmem : (w, decl) ∈ front ++ (w, decl) :: rest := by simp
    refine ⟨decl, hdecode _ hmem, ?_⟩
    have hnone : rest.filter (·.1.cls = w.cls) = [] := by
      rw [List.filter_eq_nil_iff]
      intro c hc
      simpa using hlast c.1 (List.mem_map_of_mem hc)
    have hmine : (front ++ (w, decl) :: rest).filter (·.1.cls = w.cls) =
        front.filter (·.1.cls = w.cls) ++ [(w, decl)] := by
      rw [List.filter_append, List.filter_cons_of_pos (by simp), hnone]
    have hcount : ((front ++ (w, decl) :: rest).map Prod.fst).countP (·.cls = w.cls) =
        ((front ++ (w, decl) :: rest).filter (·.1.cls = w.cls)).length := by
      rw [List.countP_map, List.countP_eq_length_filter]
      rfl
    have hdecl : (((front ++ (w, decl) :: rest).filter (·.1.cls = w.cls)).getLast?.map
        Prod.snd).getD (m.cls w.cls).decl = decl := by
      rw [hmine, List.getLast?_append]
      rfl
    have hcls : (m.swapAll (front ++ (w, decl) :: rest)).cls w.cls = _ :=
      cls_swapAll (hin _ hmem) _
    rw [hcls, hdecl, hcount]

/-- Values beside what they are of are those of a list of computations. -/
theorem mapM_eq_ok_iff_zip {ε α β : Type} {f : α → Except ε β} {as : List α} {bs : List β} :
    as.mapM f = .ok bs ↔ ∃ pairs : List (α × β), pairs.map Prod.fst = as ∧
      pairs.map Prod.snd = bs ∧ ∀ p ∈ pairs, f p.1 = .ok p.2 := by
  induction as generalizing bs with
  | nil =>
    constructor
    · rintro ⟨⟩
      exact ⟨[], rfl, rfl, nofun⟩
    · rintro ⟨pairs, hfst, rfl, -⟩
      rw [List.map_eq_nil_iff.mp hfst]
      rfl
  | cons a as ih =>
    rw [mapM_cons_eq_ok]
    constructor
    · rintro ⟨b, rest, hb, hrest, rfl⟩
      obtain ⟨pairs, rfl, rfl, hall⟩ := ih.mp hrest
      exact ⟨(a, b) :: pairs, rfl, rfl, List.forall_mem_cons.mpr ⟨hb, hall⟩⟩
    · rintro ⟨pairs, hfst, rfl, hall⟩
      obtain ⟨⟨a', b⟩, pairs, rfl, ha, hrest⟩ := List.map_eq_cons_iff.mp hfst
      obtain rfl : a' = a := ha
      obtain ⟨hb, hall⟩ := List.forall_mem_cons.mp hall
      exact ⟨b, pairs.map Prod.snd, hb, ih.mpr ⟨pairs, hrest, rfl, hall⟩, rfl⟩

/-- A batch is taken with the definitions that the machine takes from its units. -/
theorem redefine_eq_ok {batch : List Replacement} {ids : List ClassId} :
    m.redefine batch = .ok (ids, m') ↔ ids = batch.map (·.cls) ∧
      ∃ changes : List (Replacement × ClassDecl), changes.map Prod.fst = batch ∧
        (∀ c ∈ changes, m.Takes c.1 c.2) ∧ m' = m.swapAll changes := by
  have hzip : ∀ changes : List (Replacement × ClassDecl),
      (changes.map Prod.fst).zip (changes.map Prod.snd) = changes := by
    intro changes
    rw [List.zip_map', List.map_id']
  rw [redefine, bind_eq_ok]
  constructor
  · rintro ⟨decls, hdecls, h⟩
    obtain ⟨changes, rfl, rfl, hall⟩ := mapM_eq_ok_iff_zip.mp hdecls
    rw [hzip] at h
    cases h
    exact ⟨rfl, changes, rfl, fun c hc ↦ checkReplacement_eq_ok.mp (hall c hc), rfl⟩
  · rintro ⟨rfl, changes, rfl, htakes, rfl⟩
    refine ⟨changes.map Prod.snd, mapM_eq_ok_iff_zip.mpr ⟨changes, rfl, rfl, fun c hc ↦ ?_⟩, ?_⟩
    · exact checkReplacement_eq_ok.mpr (htakes c hc)
    · rw [hzip]
      rfl

/-- A batch is taken exactly when the machine as it is before the batch takes each unit of it. -/
theorem redefine_isOk_iff {batch : List Replacement} :
    (∃ ids m', m.redefine batch = .ok (ids, m')) ↔ ∀ u ∈ batch, ∃ decl, m.Takes u decl := by
  constructor
  · rintro ⟨ids, m', h⟩ u hu
    obtain ⟨-, changes, rfl, htakes, -⟩ := redefine_eq_ok.mp h
    obtain ⟨c, hc, rfl⟩ := List.mem_map.mp hu
    exact ⟨c.2, htakes c hc⟩
  · intro h
    obtain ⟨decls, hdecls⟩ : ∃ decls, batch.mapM m.checkReplacement = .ok decls := by
      apply exists_mapM_eq_ok
      intro u hu
      obtain ⟨decl, hdecl⟩ := h u hu
      exact ⟨decl, checkReplacement_eq_ok.mpr hdecl⟩
    rw [redefine, hdecls]
    exact ⟨_, _, rfl⟩

/-- Taking a definition keeps the schema of every class. -/
theorem sameSchema_swap {u : Replacement} {decl : ClassDecl} (h : m.Takes u decl) (id : ClassId) :
    (m.cls id).decl.SameSchema ((m.swap u.cls decl).cls id).decl := by
  apply modifyClass_cases (P := fun c ↦ (m.cls id).decl.SameSchema c.decl) id
  · rintro rfl
    exact h.2.2
  · exact .refl _

/-- After a definition was taken, the machine takes what it took before. -/
theorem takes_swap_iff {u v : Replacement} {decl decl' : ClassDecl} (h : m.Takes u decl) :
    (m.swap u.cls decl).Takes v decl' ↔ m.Takes v decl' := by
  have hsame := sameSchema_swap h v.cls
  constructor
  · rintro ⟨hdecode, hverify, hschema⟩
    exact ⟨hdecode, hverify, hsame.trans hschema⟩
  · rintro ⟨hdecode, hverify, hschema⟩
    exact ⟨hdecode, hverify, hsame.symm.trans hschema⟩

/-- What the machine keeps when it takes a definition, it keeps when it takes a batch. -/
theorem redefine_induction {P : Machine → Prop} {batch : List Replacement} {ids : List ClassId}
    (hswap : ∀ m u decl, P m → m.Takes u decl → P (m.swap u.cls decl)) (hm : P m)
    (h : m.redefine batch = .ok (ids, m')) : P m' := by
  obtain ⟨-, changes, -, htakes, rfl⟩ := redefine_eq_ok.mp h
  clear h
  induction changes generalizing m with
  | nil => exact hm
  | cons c rest ih =>
    obtain ⟨hfirst, hrest⟩ := List.forall_mem_cons.mp htakes
    apply ih (hswap m c.1 c.2 hm hfirst)
    exact fun d hd ↦ (takes_swap_iff hfirst).mpr (hrest d hd)

/-- A batch comes to the same as its units one after the other: checking all of them against the
machine before the batch accepts what checking each against the machine at its turn would. -/
theorem redefine_cons_eq_ok {u : Replacement} {rest : List Replacement} {ids : List ClassId} :
    m.redefine (u :: rest) = .ok (ids, m') ↔
      ∃ m₁ ids', m.redefine [u] = .ok ([u.cls], m₁) ∧ m₁.redefine rest = .ok (ids', m') ∧
        ids = u.cls :: ids' := by
  constructor
  · intro h
    obtain ⟨rfl, changes, hbatch, htakes, rfl⟩ := redefine_eq_ok.mp h
    obtain ⟨⟨w, decl⟩, changes, rfl, hw, hrest⟩ := List.map_eq_cons_iff.mp hbatch
    obtain rfl : w = u := hw
    obtain ⟨hfirst, htakes⟩ := List.forall_mem_cons.mp htakes
    refine ⟨m.swap w.cls decl, rest.map (·.cls), redefine_eq_ok.mpr ⟨rfl, [(w, decl)], rfl, ?_, rfl⟩,
      redefine_eq_ok.mpr ⟨rfl, changes, hrest, ?_, rfl⟩, rfl⟩
    · exact List.forall_mem_singleton.mpr hfirst
    · exact fun c hc ↦ (takes_swap_iff hfirst).mpr (htakes c hc)
  · rintro ⟨m₁, ids', hfirst, hrest, rfl⟩
    obtain ⟨-, first, hone, htakes, rfl⟩ := redefine_eq_ok.mp hfirst
    obtain ⟨⟨w, decl⟩, none, rfl, hw, hnone⟩ := List.map_eq_cons_iff.mp hone
    obtain rfl : w = u := hw
    obtain rfl := List.map_eq_nil_iff.mp hnone
    have hfirst : m.Takes w decl := htakes _ (.head _)
    obtain ⟨rfl, changes, rfl, htakes, rfl⟩ := redefine_eq_ok.mp hrest
    refine redefine_eq_ok.mpr ⟨rfl, (w, decl) :: changes, rfl, ?_, rfl⟩
    refine List.forall_mem_cons.mpr ⟨hfirst, fun c hc ↦ ?_⟩
    exact (takes_swap_iff hfirst).mp (htakes c hc)

/-! ### Redefining in place -/

/-- Checks the units of a batch in turn, each against the machine as it is then. -/
def checkInPlace (batch : List Replacement) : InPlace Error Machine (List ClassDecl) :=
  batch.mapM fun u ↦ .ask (·.checkReplacement u)

/-- Gives a class a new definition and counts it then. -/
def swapInPlace (id : ClassId) (decl : ClassDecl) : InPlace Error Machine Unit := do
  .store fun m ↦ ((), m.modifyClass id fun c ↦ { c with decl })
  .store fun m ↦ ((), m.modifyClass id fun c ↦ { c with redefinitions := c.redefinitions + 1 })

/-- Redefines the classes of a batch by changing the machine in place: all checks, then all
swaps. -/
def redefineInPlace (batch : List Replacement) : InPlace Error Machine (List ClassId) := do
  let decls ← checkInPlace batch
  (batch.zip decls).forM fun (u, decl) ↦ swapInPlace u.cls decl
  pure (batch.map (·.cls))

theorem exec_swapInPlace (m : Machine) (id : ClassId) (decl : ClassDecl) :
    (swapInPlace id decl).exec m = (.ok (), m.swap id decl) := by
  rw [swapInPlace, InPlace.exec_store_bind, InPlace.exec_store, modifyClass_modifyClass]
  rfl

/-- Redefining in place comes to the same as redefining: a check that fails finds the machine as it
was, since nothing is swapped before the last check. -/
theorem exec_redefineInPlace (m : Machine) (batch : List Replacement) :
    (redefineInPlace batch).exec m = InPlace.settle m (m.redefine batch) := by
  rw [redefineInPlace, redefine, checkInPlace, InPlace.exec_bind, InPlace.exec_mapM_ask]
  cases batch.mapM m.checkReplacement with
  | error e => rfl
  | ok decls =>
    have hswap : ∀ (c : Replacement × ClassDecl) (m : Machine),
        (swapInPlace c.1.cls c.2).exec m = (.ok (), m.swap c.1.cls c.2) :=
      fun c m ↦ exec_swapInPlace m c.1.cls c.2
    dsimp only
    rw [InPlace.exec_bind, InPlace.exec_forM_of_ok hswap]
    rfl

/-- A redefinition takes a batch as a whole or not at all. It changes the machine in place, and
where it fails, the machine is as it was, and so a bridge to it says. Where it succeeds, it names
the classes in order and has exactly the effect of the batch. It succeeds exactly when each image of
the batch can be decoded, verifies if the machine verifies, and agrees with the definition that its
class has before the batch. -/
theorem redefine_exact (m : Machine) {batch : List Replacement}
    (hin : ∀ u ∈ batch, m.Has u.cls) :
    (∀ e m', (redefineInPlace batch).exec m = (.error e, m') →
        m' = m ∧ m.redefine batch = .error e ∧ ∀ b : Bridge, b.capability = some capability →
          b.redefine m batch = (.error (.redefinition e), b, m)) ∧
      (∀ ids m', (redefineInPlace batch).exec m = (.ok ids, m') →
        m.redefine batch = .ok (ids, m') ∧ ids = batch.map (·.cls) ∧ m.Redefined batch m' ∧
          ∀ b : Bridge, b.capability = some capability → b.redefine m batch = (.ok ids, b, m')) ∧
      ((∃ ids m', (redefineInPlace batch).exec m = (.ok ids, m')) ↔
        ∀ u ∈ batch, ∃ decl, ClassDecl.decode u.image = .ok decl ∧
          (m.config.verifyOnDefine = true → decl.verify = .ok ()) ∧
          (m.cls u.cls).decl.SameSchema decl) := by
  have hexec := exec_redefineInPlace m batch
  refine ⟨fun e m' he ↦ ?_, fun ids m' hok ↦ ?_, ?_⟩
  · obtain ⟨rfl, he⟩ := (InPlace.exec_eq_error_iff hexec).mp he
    refine ⟨rfl, he, fun b hb ↦ ?_⟩
    rw [Bridge.redefine_of_capability hb, he]
  · have h := (InPlace.exec_eq_ok_iff hexec).mp hok
    obtain ⟨rfl, changes, rfl, htakes, rfl⟩ := redefine_eq_ok.mp h
    have heffect := redefined_swapAll (fun c hc ↦ hin c.1 (List.mem_map_of_mem hc))
      fun c hc ↦ (htakes c hc).1
    refine ⟨h, rfl, heffect, fun b hb ↦ ?_⟩
    rw [Bridge.redefine_of_capability hb, h]
  · simp only [InPlace.exec_eq_ok_iff hexec]
    exact redefine_isOk_iff

/-- A class with a static field and a method that returns a number. -/
def returning (n : Int32) : ClassDecl :=
  ⟨Flag.visible, "k.P", none, [⟨Flag.static, "s", .prim .int⟩],
    [⟨Flag.static, "n", ⟨[], .prim .int⟩, some ⟨0, 1, [.const (.int n), .retValue]⟩⟩]⟩

/-- The images of the class that return two and three. -/
def returningImage (n : UInt8) : List UInt8 :=
  [84, 80, 67, 76, 1, 0, 1, 0, 3, 107, 46, 80, 0, 1, 8, 0, 1, 115, 1, 73, 1, 8, 0, 1, 110, 3, 40, 41,
    73, 1, 0, 1, 2, 17, n, 0, 0, 0, 113]

/-- A machine with that class and another one, the first with a value in its static field. -/
def returningMachine : Machine :=
  ⟨.standard, [], #[{ LiveClass.link 0 (returning 1) [] with statics := .ofList [("s", .int 7)] },
    .link 0 ⟨Flag.visible, "k.Q", none, [], []⟩ []], .ofList [("k.P", ⟨0⟩), ("k.Q", ⟨1⟩)], [], #[], 1⟩

/-- A batch that redefines the class twice. -/
def returningBatch : List Replacement := [⟨⟨0⟩, returningImage 2⟩, ⟨⟨0⟩, returningImage 3⟩]

/-- The class gets the second definition, counts both and keeps its static value. -/
theorem returningMachine_redefine_exact :
    (∀ u ∈ returningBatch, returningMachine.Has u.cls) ∧
      ∃ m', (redefineInPlace returningBatch).exec returningMachine = (.ok [⟨0⟩, ⟨0⟩], m') ∧
        m'.cls ⟨0⟩ = { returningMachine.cls ⟨0⟩ with decl := returning 3, redefinitions := 2 } ∧
        m'.cls ⟨1⟩ = returningMachine.cls ⟨1⟩ := by
  have hin : ∀ u ∈ returningBatch, returningMachine.Has u.cls := by
    unfold Has
    decide
  obtain ⟨-, heffect, hiff⟩ := redefine_exact returningMachine hin
  have hthree : ClassDecl.decode (returningImage 3) = .ok (returning 3) := by cbv
  obtain ⟨ids, m', h⟩ := hiff.mpr fun u hu ↦ by
    simp only [returningBatch, List.mem_cons, List.not_mem_nil, or_false] at hu
    rcases hu with rfl | rfl
    · refine ⟨returning 2, by cbv, fun _ ↦ by cbv, ?_⟩
      exact ClassDecl.schemaChange?_eq_none_iff.mp (by cbv)
    · refine ⟨returning 3, hthree, fun _ ↦ by cbv, ?_⟩
      exact ClassDecl.schemaChange?_eq_none_iff.mp (by cbv)
  obtain ⟨-, rfl, hredefined, -⟩ := heffect ids m' h
  refine ⟨hin, m', h, ?_, hredefined.others ⟨1⟩ (by decide)⟩
  obtain ⟨decl, hdecl, hcls⟩ := hredefined.replaced [⟨⟨0⟩, returningImage 2⟩] _ [] rfl (by simp)
  obtain rfl : returning 3 = decl := Except.ok.inj (hthree.symm.trans hdecl)
  exact hcls

end Machine

end Hotswap
