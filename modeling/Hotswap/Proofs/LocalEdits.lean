import Hotswap.Proofs.FrozenTypes
import Hotswap.Proofs.InPlace

/-!
# Local edits

An edit changes the member that it addresses or appends one, and nothing else; a refused edit
changes nothing at all, although the type is changed in place. Since no edit moves or renames a
method, positions go on meaning what they meant, through any edits. Only finalizing changes
something before it can still fail: the depths that bodies declare.
-/

namespace Hotswap

/-! ### Bodies in place -/

namespace Body

/-- Runs a snippet before the code of a body, which is replaced last. -/
def insertBeforeInPlace (snippet : List Instruction) : InPlace Error Body Unit := do
  .ask fun _ ↦ checkBranches snippet
  .ask fun _ ↦ checkLength snippet.length
  .ask fun b ↦ checkLength (snippet.length + b.code.length)
  .store fun b ↦ ((), { b with code := snippet ++ relocate snippet.length b.code })

/-- Runs a snippet before each return of a body. The code is replaced when all parts of the new one
are there, and after that the local of the returned value is declared. -/
def insertAfterInPlace (snippet : List Instruction) : InPlace Error Body Unit := do
  .ask fun _ ↦ checkBranches snippet
  .refuse (fun b ↦ b.returnsSomewhere && b.maxLocals == 0xFFFF) fun _ ↦ .malformed .noSpillSlot
  .ask fun b ↦ (expansionStarts snippet.length b.code).forM checkLength
  let parts ← .ask fun b ↦ b.code.zipIdx.mapM fun (i, index) ↦
    i.expand snippet b.maxLocals (expansionStarts snippet.length b.code).toArray index
  let spills ← .ask fun b ↦ .ok b.returnsSomewhere
  .store fun b ↦ ((), { b with code := parts.flatten })
  if spills then .store fun b ↦ ((), { b with maxLocals := b.maxLocals + 1 }) else pure ()

/-- Replaces the code of a body, and then the depth. -/
def replaceInPlace (code : List Instruction) : InPlace Error Body Unit := do
  .store fun b ↦ ((), { b with code })
  .store fun b ↦ ((), { b with maxStack := 0 })

theorem exec_insertBeforeInPlace (b : Body) (snippet : List Instruction) :
    (insertBeforeInPlace snippet).exec b = InPlace.replace b (b.insertBefore snippet) := by
  refine InPlace.exec_ask_bind_of_replace fun _ ↦ ?_
  refine InPlace.exec_ask_bind_of_replace fun _ ↦ ?_
  exact InPlace.exec_ask_bind_of_replace fun _ ↦ rfl

theorem exec_insertAfterInPlace (b : Body) (snippet : List Instruction) :
    (insertAfterInPlace snippet).exec b = InPlace.replace b (b.insertAfter snippet) := by
  refine InPlace.exec_ask_bind_of_replace fun _ ↦ ?_
  refine InPlace.exec_refuse_bind_of_replace ?_
  refine InPlace.exec_ask_bind_of_replace fun _ ↦ ?_
  refine InPlace.exec_ask_bind_of_replace fun parts ↦ ?_
  rw [InPlace.exec_ask_bind]
  cases hspills : b.returnsSomewhere <;> rfl

theorem exec_replaceInPlace (b : Body) (code : List Instruction) :
    (replaceInPlace code).exec b = InPlace.replace b (.ok (b.replace code)) := rfl

end Body

/-! ### Types in place -/

namespace Editable

/-- Changes the method at a position in place. -/
def modifyMethodInPlace (id : MethodId) (p : InPlace Error MethodDecl Unit) :
    InPlace Error Editable Unit := do
  .ask checkThawed
  let m ← .ask fun t ↦ match t.method? id with
    | none => .error (.noSuchMethod t.decl.name id.text "")
    | some m => .ok m
  .focus (fun t ↦ (t.method? id).getD m) (fun m t ↦ t.withMethod id m) p

/-- Changes the body of a method that has one in place. -/
def onBody (b : Body) (p : InPlace Error Body Unit) : InPlace Error MethodDecl Unit :=
  .focus (fun m ↦ m.body.getD b) (fun b m ↦ { m with body := some b }) p

/-- Changes the body of the method at a position in place. -/
def modifyBodyInPlace (id : MethodId) (p : InPlace Error Body Unit) :
    InPlace Error Editable Unit := do
  let name ← .ask fun t ↦ .ok t.decl.name
  modifyMethodInPlace id do
    let b ← .ask fun m ↦ match m.body with
      | none => .error (.noSuchMethod name m.signature " (no body)")
      | some b => .ok b
    onBody b p

/-- Replaces the code of a method in place. -/
def setBodyInPlace (id : MethodId) (code : List Instruction) : InPlace Error Editable Unit :=
  modifyMethodInPlace id do
    match ← .ask fun m ↦ .ok m.body with
    | some b => onBody b (Body.replaceInPlace code)
    | none => .store fun m ↦ ((), { m with body := some (m.bodyOf code) })

/-- Declares a field in place. -/
def addFieldInPlace (f : FieldDecl) : InPlace Error Editable Unit := do
  .ask checkThawed
  .refuse (fun t ↦ t.decl.fields.any (·.name == f.name)) fun t ↦ .duplicateMember t.decl.name f.name
  .store fun t ↦ ((), { t with decl := { t.decl with fields := t.decl.fields ++ [f] } })

/-- Declares a method in place and takes its position afterwards. -/
def addMethodInPlace (m : MethodDecl) : InPlace Error Editable MethodId := do
  .ask checkThawed
  .refuse (fun t ↦ (t.decl.method? m.name m.type).isSome)
    fun t ↦ .duplicateMember t.decl.name m.signature
  .store fun t ↦ ((), { t with decl := { t.decl with methods := t.decl.methods ++ [m] } })
  .ask fun t ↦ .ok ⟨t.decl.methods.length - 1⟩

/-- Finalizes in place. The depths are replaced when all of them are known; verifying and encoding
come after that and can still fail. -/
def finalizeInPlace : InPlace Error Editable (List UInt8) := do
  let decl ← .ask fun t ↦ t.decl.withReachedDepths
  .store fun t ↦ ((), { t with decl })
  .ask fun t ↦ t.decl.verify
  let image ← .ask fun t ↦ t.decl.encode
  .store fun t ↦ ((), { t with frozen := true })
  pure image

/-- What a change does in place. -/
def changeInPlace : Change → InPlace Error Editable Unit
  | .addField f => addFieldInPlace f
  | .addMethod m => (fun _ ↦ ()) <$> addMethodInPlace m
  | .changeBody id f => modifyBodyInPlace id (.store fun b ↦ ((), f b))
  | .insertBefore id snippet => modifyBodyInPlace id (Body.insertBeforeInPlace snippet)
  | .insertAfter id snippet => modifyBodyInPlace id (Body.insertAfterInPlace snippet)
  | .setBody id code => setBodyInPlace id code
  | .setFlags id flags => modifyMethodInPlace id (.store fun m ↦ ((), { m with flags }))
  | .thaw => .store fun t ↦ ((), t.thaw)
  | .finalize => (fun _ ↦ ()) <$> finalizeInPlace

variable {t t' : Editable}

theorem withMethod_self {id : MethodId} {m : MethodDecl} (h : t.method? id = some m) :
    t.withMethod id m = t := by
  obtain ⟨hlt, hm⟩ := List.getElem?_eq_some_iff.mp h
  rw [withMethod, ← hm, List.set_getElem_self]

/-- A method that is changed in place is changed as a whole or not at all. -/
theorem exec_modifyMethodInPlace {p : InPlace Error MethodDecl Unit}
    {f : MethodDecl → Except Error MethodDecl}
    (h : ∀ m, p.exec m = InPlace.replace m (f m)) (t : Editable) (id : MethodId) :
    (modifyMethodInPlace id p).exec t = InPlace.replace t (t.modifyMethod id f) := by
  refine InPlace.exec_ask_bind_of_replace fun _ ↦ ?_
  rw [InPlace.exec_ask_bind]
  cases hm : t.method? id with
  | none => rfl
  | some m =>
    have hfocus : InPlace.exec (.focus (fun t ↦ (t.method? id).getD m)
        (fun m t ↦ t.withMethod id m) p) t = InPlace.replace t ((t.withMethod id ·) <$> f m) :=
      InPlace.exec_focus_of_replace (by rw [hm]; exact withMethod_self hm) (by rw [hm]; exact h m)
    show (InPlace.focus _ _ p).exec t =
      InPlace.replace t (f m >>= fun m ↦ pure (t.withMethod id m))
    rw [hfocus]
    cases f m <;> rfl

theorem exec_onBody {p : InPlace Error Body Unit} {m : MethodDecl} {b : Body}
    {r : Except Error Body} (hb : m.body = some b) (h : p.exec b = InPlace.replace b r) :
    (onBody b p).exec m =
      InPlace.replace m ((fun b ↦ { m with body := some b : MethodDecl }) <$> r) := by
  refine InPlace.exec_focus_of_replace ?_ ?_
  · obtain ⟨flags, name, type, body⟩ := m
    cases hb
    rfl
  · rw [hb]
    exact h

theorem exec_modifyBodyInPlace {p : InPlace Error Body Unit} {f : Body → Except Error Body}
    (h : ∀ b, p.exec b = InPlace.replace b (f b)) (t : Editable) (id : MethodId) :
    (modifyBodyInPlace id p).exec t = InPlace.replace t (t.modifyBody id f) := by
  rw [modifyBodyInPlace, InPlace.exec_ask_bind]
  refine exec_modifyMethodInPlace (fun m ↦ ?_) t id
  rw [InPlace.exec_ask_bind]
  cases hb : m.body with
  | none => rfl
  | some b => exact exec_onBody hb (h b)

theorem exec_setBodyInPlace (t : Editable) (id : MethodId) (code : List Instruction) :
    (setBodyInPlace id code).exec t = InPlace.replace t (t.setBody id code) := by
  refine exec_modifyMethodInPlace (fun m ↦ ?_) t id
  rw [InPlace.exec_ask_bind]
  cases hb : m.body with
  | none => rfl
  | some b => exact exec_onBody hb (Body.exec_replaceInPlace b code)

theorem exec_addFieldInPlace (t : Editable) (f : FieldDecl) :
    (addFieldInPlace f).exec t = InPlace.replace t (t.addField f) := by
  refine InPlace.exec_ask_bind_of_replace fun _ ↦ ?_
  exact InPlace.exec_refuse_bind_of_replace rfl

/-- The position of a method that was declared is taken when it is there. -/
theorem exec_addMethodInPlace (t : Editable) (m : MethodDecl) :
    (addMethodInPlace m).exec t = InPlace.settle t (Prod.swap <$> t.addMethod m) := by
  rw [addMethodInPlace, addMethod, InPlace.exec_ask_bind]
  cases t.checkThawed with
  | error e => rfl
  | ok _ =>
    simp only [InPlace.refuse, InPlace.exec_ask_bind]
    cases (t.decl.method? m.name m.type).isSome with
    | true => rfl
    | false =>
      have hlast : (t.decl.methods ++ [m]).length - 1 = t.decl.methods.length := by
        rw [List.length_append, List.length_singleton, Nat.add_sub_cancel]
      simp only [InPlace.exec_store_bind, InPlace.exec_ask, Bool.false_eq_true, if_false, hlast]
      rfl

/-- Finalizing in place comes to the same as finalizing, also where it fails. -/
theorem exec_finalizeInPlace (t : Editable) : finalizeInPlace.exec t = t.finalize := by
  rw [finalizeInPlace, finalize, InPlace.exec_ask_bind]
  cases t.decl.withReachedDepths with
  | error e => rfl
  | ok decl =>
    simp only [InPlace.exec_store_bind, InPlace.exec_ask_bind]
    cases decl.verify with
    | error e => rfl
    | ok _ => cases decl.encode <;> rfl

/-- An edit in place comes to the same as the edit. -/
theorem exec_changeInPlace {c : Change} (hc : c.IsEdit) (t : Editable) :
    (changeInPlace c).exec t = InPlace.replace t (t.tried c) := by
  cases c with
  | addField f => exact exec_addFieldInPlace t f
  | addMethod m =>
    show ((fun _ ↦ ()) <$> addMethodInPlace m).exec t = _
    rw [InPlace.exec_map, exec_addMethodInPlace, tried]
    cases t.addMethod m <;> rfl
  | changeBody id f =>
    exact exec_modifyBodyInPlace (p := .store fun b ↦ ((), f b)) (f := fun b ↦ .ok (f b))
      (fun _ ↦ rfl) t id
  | insertBefore id snippet =>
    exact exec_modifyBodyInPlace (Body.exec_insertBeforeInPlace · snippet) t id
  | insertAfter id snippet =>
    exact exec_modifyBodyInPlace (Body.exec_insertAfterInPlace · snippet) t id
  | setBody id code => exact exec_setBodyInPlace t id code
  | setFlags id flags =>
    exact exec_modifyMethodInPlace (p := .store fun m ↦ ((), { m with flags }))
      (f := fun m ↦ .ok { m with flags }) (fun _ ↦ rfl) t id
  | thaw | finalize => exact hc.elim

/-- What is left of a type when a change was tried in place is the type after the change. -/
theorem snd_exec_changeInPlace (c : Change) (t : Editable) :
    ((changeInPlace c).exec t).2 = t.after c := by
  by_cases hc : c.IsEdit
  · rw [exec_changeInPlace hc, after_eq_accept]
    cases t.tried c <;> rfl
  · cases c with
    | thaw => rfl
    | finalize =>
      show (((fun _ ↦ ()) <$> finalizeInPlace).exec t).2 = t.finalize.2
      rw [InPlace.exec_map, exec_finalizeInPlace]
    | _ => exact (hc trivial).elim

/-! ### What an edit changes -/

/-- The method whose body a change is about. -/
def Change.bodyOf? : Change → Option MethodId
  | .changeBody id _ | .insertBefore id _ | .insertAfter id _ | .setBody id _ => some id
  | _ => none

/-- What an edit makes of a type: a type with one field more, with one method more, or with another
body or other flags in one method. -/
inductive Edits (t : Editable) : Change → Editable → Prop where
  | field (f : FieldDecl) : (∀ g ∈ t.decl.fields, g.name ≠ f.name) →
    Edits t (.addField f) { t with decl := { t.decl with fields := t.decl.fields ++ [f] } }
  | method (m : MethodDecl) : (∀ n ∈ t.decl.methods, (n.name, n.type) ≠ (m.name, m.type)) →
    Edits t (.addMethod m) { t with decl := { t.decl with methods := t.decl.methods ++ [m] } }
  | body {c : Change} {id : MethodId} {m : MethodDecl} (b : Body) : c.bodyOf? = some id →
    t.method? id = some m → Edits t c (t.withMethod id { m with body := some b })
  | flags {id : MethodId} {m : MethodDecl} (flags : UInt16) : t.method? id = some m →
    Edits t (.setFlags id flags) (t.withMethod id { m with flags })

theorem edits_of_modifyBody {c : Change} {id : MethodId} {f : Body → Except Error Body}
    (hc : c.bodyOf? = some id) (h : t.modifyBody id f = .ok t') : t.Edits c t' := by
  obtain ⟨-, m, b, b', hm, -, -, rfl⟩ := modifyBody_eq_ok h
  exact .body b' hc hm

/-- An edit that succeeds changes one member or appends one. -/
theorem edits_of_tried {c : Change} (hc : c.IsEdit) (h : t.tried c = .ok t') : t.Edits c t' := by
  cases c with
  | addField f =>
    obtain ⟨-, hnew, rfl⟩ := addField_eq_ok h
    exact .field f hnew
  | addMethod m =>
    obtain ⟨⟨_, _⟩, hadd, rfl⟩ := map_eq_ok.mp h
    obtain ⟨-, hnew, -, rfl⟩ := addMethod_eq_ok hadd
    exact .method m hnew
  | changeBody | insertBefore | insertAfter => exact edits_of_modifyBody rfl h
  | setBody id code =>
    obtain ⟨-, m, m', hm, hm', rfl⟩ := modifyMethod_eq_ok h
    cases hm'
    exact .body _ rfl hm
  | setFlags id flags =>
    obtain ⟨-, m, m', hm, hm', rfl⟩ := modifyMethod_eq_ok h
    cases hm'
    exact .flags flags hm
  | thaw | finalize => exact hc.elim

/-- The method that a change is about, if it is about one that is there. -/
def Change.target? : Change → Option MethodId
  | .setFlags id _ => some id
  | c => c.bodyOf?

/-- The fields that a change declares. -/
def Change.newFields : Change → List FieldDecl
  | .addField f => [f]
  | _ => []

/-- The methods that a change declares. -/
def Change.newMethods : Change → List MethodDecl
  | .addMethod m => [m]
  | _ => []

/-- What a change may make of the method that it is about: the same one with another body or, if
that is what the change sets, with other flags. -/
structure Reworks (c : Change) (m m' : MethodDecl) : Prop where
  name : m'.name = m.name
  type : m'.type = m.type
  flags : (∀ id flags, c ≠ .setFlags id flags) → m'.flags = m.flags
  body : c.bodyOf? = none → m'.body = m.body

/-- How far a change reaches. All that a class says of itself stays, the fields and the methods stay
in their places, with new ones behind them, and only the method that the change is about may be
another one. -/
structure ReachesOnly (c : Change) (t t' : Editable) : Prop where
  frozen : t'.frozen = t.frozen
  flags : t'.decl.flags = t.decl.flags
  name : t'.decl.name = t.decl.name
  superName : t'.decl.superName = t.decl.superName
  fields : t'.decl.fields = t.decl.fields ++ c.newFields
  methods : t'.decl.methods.length = t.decl.methods.length + c.newMethods.length
  added : ∀ m ∈ c.newMethods, t'.method? ⟨t.decl.methods.length⟩ = some m
  others : ∀ id m, t.method? id = some m → c.target? ≠ some id → t'.method? id = some m
  target : ∀ id m, t.method? id = some m → c.target? = some id →
    ∃ m', t'.method? id = some m' ∧ Reworks c m m'

theorem method?_withMethod {id : MethodId} {m : MethodDecl} (h : t.method? id = some m)
    (m' : MethodDecl) (other : MethodId) :
    (t.withMethod id m').method? other = if id = other then some m' else t.method? other := by
  have hlt := (List.getElem?_eq_some_iff.mp h).1
  obtain ⟨index⟩ := id
  obtain ⟨index'⟩ := other
  simp only [method?, withMethod, List.getElem?_set, hlt, if_true, MethodId.mk.injEq]

/-- A method in the place of one that it reworks is all that changes. -/
theorem reachesOnly_withMethod {c : Change} {id : MethodId} {m m' : MethodDecl}
    (hc : c.target? = some id) (hfields : c.newFields = []) (hmethods : c.newMethods = [])
    (h : t.method? id = some m) (hm' : Reworks c m m') :
    ReachesOnly c t (t.withMethod id m') where
  frozen := rfl
  flags := rfl
  name := rfl
  superName := rfl
  fields := by rw [hfields, List.append_nil]; rfl
  methods := by rw [hmethods]; exact List.length_set
  added := by rw [hmethods]; exact nofun
  others other n hn hother := by
    rw [method?_withMethod h, if_neg, hn]
    rintro rfl
    exact hother hc
  target other n hn hother := by
    obtain rfl : id = other := Option.some.inj (hc.symm.trans hother)
    obtain rfl : m = n := Option.some.inj (h.symm.trans hn)
    exact ⟨m', (method?_withMethod h m' id).trans (if_pos rfl), hm'⟩

theorem Edits.reachesOnly {c : Change} (h : t.Edits c t') : ReachesOnly c t t' := by
  cases h with
  | field f =>
    exact ⟨rfl, rfl, rfl, rfl, rfl, rfl, nofun, fun _ _ h _ ↦ h, fun _ _ _ ↦ nofun⟩
  | method m =>
    refine ⟨rfl, rfl, rfl, rfl, (List.append_nil _).symm, List.length_append, ?_, ?_,
      fun _ _ _ ↦ nofun⟩
    · intro n hn
      rw [List.mem_singleton.mp hn]
      exact List.getElem?_concat_length
    · intro id n hn _
      exact (List.getElem?_append_left (List.getElem?_eq_some_iff.mp hn).1).trans hn
  | @body c id m b hc hm =>
    have hreworks : Reworks c m { m with body := some b } :=
      ⟨rfl, rfl, fun _ ↦ rfl, fun hnone ↦ by rw [hnone] at hc; cases hc⟩
    cases c with
    | addField | addMethod | setFlags | thaw | finalize => cases hc
    | changeBody | insertBefore | insertAfter | setBody =>
      exact reachesOnly_withMethod hc rfl rfl hm hreworks
  | flags flags hm =>
    exact reachesOnly_withMethod rfl rfl rfl hm
      ⟨rfl, rfl, fun hne ↦ (hne _ flags rfl).elim, fun _ ↦ rfl⟩

/-! ### What lasts through changes -/

/-- The names of the fields, in order. -/
def fieldNames (t : Editable) : List String := t.decl.fields.map (·.name)

/-- The names and types of the methods, in order. -/
def methodKeys (t : Editable) : List (String × MethodTy) :=
  t.decl.methods.map fun m ↦ (m.name, m.type)

/-- A list is another one, or that and one behind it that was not in it. -/
inductive Gains {α : Type} (xs : List α) : List α → Prop where
  | same : Gains xs xs
  | concat {x : α} : x ∉ xs → Gains xs (xs ++ [x])

theorem Gains.isPrefix {α : Type} {xs ys : List α} (h : Gains xs ys) : xs <+: ys := by
  cases h with
  | same => exact List.prefix_refl xs
  | concat => exact List.prefix_append xs _

theorem Gains.nodup {α : Type} {xs ys : List α} (h : Gains xs ys) (hxs : xs.Nodup) :
    ys.Nodup := by
  cases h with
  | same => exact hxs
  | concat hx =>
    refine List.nodup_append.mpr ⟨hxs, List.nodup_singleton _, fun y hy z hz heq ↦ hx ?_⟩
    rwa [← List.mem_singleton.mp hz, ← heq]

theorem gains_map_concat {α β : Type} {g : α → β} {xs : List α} {x : α}
    (h : ∀ y ∈ xs, g y ≠ g x) : Gains (xs.map g) ((xs ++ [x]).map g) := by
  rw [List.map_append]
  refine .concat fun hmem ↦ ?_
  obtain ⟨y, hy, heq⟩ := List.mem_map.mp hmem
  exact h y hy heq

/-- A method in the place of one of its name and type declares nothing new. -/
theorem gains_withMethod {id : MethodId} {m m' : MethodDecl} (h : t.method? id = some m)
    (hname : m'.name = m.name) (htype : m'.type = m.type) :
    Gains t.fieldNames (t.withMethod id m').fieldNames ∧
      Gains t.methodKeys (t.withMethod id m').methodKeys := by
  obtain ⟨hlt, rfl⟩ := List.getElem?_eq_some_iff.mp h
  have hkeys : (t.withMethod id m').methodKeys = t.methodKeys := by
    rw [methodKeys, methodKeys, withMethod, List.map_set, hname, htype,
      ← List.getElem_map (fun m : MethodDecl ↦ (m.name, m.type)) (h := by simpa using hlt),
      List.set_getElem_self]
  rw [hkeys]
  exact ⟨.same, .same⟩

/-- Names and types depend on no depth. -/
theorem names_eq_of_withoutDepths_eq (h : t'.decl.withoutDepths = t.decl.withoutDepths) :
    t'.fieldNames = t.fieldNames ∧ t'.methodKeys = t.methodKeys := by
  have hkeys : ∀ t : Editable, t.methodKeys =
      t.decl.withoutDepths.methods.map fun m ↦ (m.name, m.type) := by
    intro t
    rw [methodKeys, ClassDecl.withoutDepths, List.map_map]
    rfl
  refine ⟨congrArg (fun c ↦ c.fields.map (·.name)) h, ?_⟩
  rw [hkeys, hkeys, h]

/-- Finalizing changes nothing of a class but depths. -/
theorem withoutDepths_finalize (t : Editable) :
    t.finalize.2.decl.withoutDepths = t.decl.withoutDepths := by
  rw [finalize]
  split
  · rfl
  · next decl hdecl =>
    have hsame := ClassDecl.withoutDepths_withReachedDepths hdecl
    split
    · exact hsame
    · split <;> exact hsame

/-- A change declares one name at most, which was not there, and behind the others. -/
theorem gains_after (t : Editable) (c : Change) :
    Gains t.fieldNames (t.after c).fieldNames ∧ Gains t.methodKeys (t.after c).methodKeys := by
  by_cases hc : c.IsEdit
  · rw [after_eq_accept]
    cases h : t.tried c with
    | error e => exact ⟨.same, .same⟩
    | ok t' =>
      cases edits_of_tried hc h with
      | field f hnew => exact ⟨gains_map_concat hnew, .same⟩
      | method m hnew => exact ⟨.same, gains_map_concat hnew⟩
      | body b _ hm => exact gains_withMethod hm rfl rfl
      | flags flags hm => exact gains_withMethod hm rfl rfl
  · cases c with
    | thaw => exact ⟨.same, .same⟩
    | finalize =>
      obtain ⟨hfields, hmethods⟩ := names_eq_of_withoutDepths_eq t.withoutDepths_finalize
      rw [after, hfields, hmethods]
      exact ⟨.same, .same⟩
    | _ => exact (hc trivial).elim

/-- Every position goes on meaning a method, of the same name and the same type. -/
def KeepsPositions (t t' : Editable) : Prop :=
  ∀ id m, t.method? id = some m → ∃ m', t'.method? id = some m' ∧ m'.name = m.name ∧
    m'.type = m.type

theorem keepsPositions_of_isPrefix (h : t.methodKeys <+: t'.methodKeys) :
    t.KeepsPositions t' := by
  intro id m hm
  have hkey : t.methodKeys[id.index]? = some (m.name, m.type) := by
    rw [methodKeys, List.getElem?_map, show t.decl.methods[id.index]? = some m from hm]
    rfl
  have hkey' : t'.methodKeys[id.index]? = some (m.name, m.type) := by
    obtain ⟨rest, hrest⟩ := h
    rw [← hrest, List.getElem?_append_left (List.getElem?_eq_some_iff.mp hkey).1, hkey]
  rw [methodKeys, List.getElem?_map] at hkey'
  obtain ⟨m', hm', hsame⟩ := Option.map_eq_some_iff.mp hkey'
  exact ⟨m', hm', congrArg Prod.fst hsame, congrArg Prod.snd hsame⟩

/-- Through changes in turn names come behind those that are there, and none comes twice. -/
theorem gains_afterAll (t : Editable) (changes : List Change) :
    t.methodKeys <+: (t.afterAll changes).methodKeys ∧
      (t.fieldNames.Nodup → (t.afterAll changes).fieldNames.Nodup) ∧
      (t.methodKeys.Nodup → (t.afterAll changes).methodKeys.Nodup) := by
  induction changes generalizing t with
  | nil => exact ⟨List.prefix_refl _, id, id⟩
  | cons c rest ih =>
    obtain ⟨hfields, hmethods⟩ := t.gains_after c
    obtain ⟨hkept, hnames, hkeys⟩ := ih (t.after c)
    exact ⟨hmethods.isPrefix.trans hkept, hnames ∘ hfields.nodup, hkeys ∘ hmethods.nodup⟩

/-- An edit in place: refused, it leaves the whole type as it was; and it reaches no further than
the member that it is about. -/
structure EditsInPlace (t : Editable) (c : Change) : Prop where
  fails : ∀ e t', (changeInPlace c).exec t = (.error e, t') ↔ t' = t ∧ t.tried c = .error e
  succeeds : ∀ t', (changeInPlace c).exec t = (.ok (), t') ↔ t.tried c = .ok t'
  reaches : ∀ t', t.tried c = .ok t' → ReachesOnly c t t'

theorem editsInPlace {c : Change} (hc : c.IsEdit) (t : Editable) : t.EditsInPlace c where
  fails _ _ := InPlace.exec_eq_error_iff_of_replace (exec_changeInPlace hc t)
  succeeds _ := InPlace.exec_eq_ok_iff_of_replace (exec_changeInPlace hc t)
  reaches _ h := (edits_of_tried hc h).reachesOnly

theorem method?_of_addMethodInPlace {m : MethodDecl} {id : MethodId}
    (h : (addMethodInPlace m).exec t = (.ok id, t')) :
    t.method? id = none ∧ t'.method? id = some m := by
  rw [InPlace.exec_eq_ok_iff (exec_addMethodInPlace t m), map_eq_ok] at h
  obtain ⟨⟨_, _⟩, hadd, hswap⟩ := h
  cases hswap
  obtain ⟨-, -, rfl, rfl⟩ := addMethod_eq_ok hadd
  exact ⟨List.getElem?_eq_none (Nat.le_refl _), List.getElem?_concat_length⟩

/-- What edits do to a type, and what they leave alone. Each edit changes the member that it is
about or appends one, or it is refused and changes nothing; a method that is appended is at the
position that is returned, which meant nothing before. So through changes in turn, the refused ones
among them, every position keeps its meaning, and names that were distinct stay distinct. Finalizing
that fails leaves the type as frozen as it was and changes nothing of the class but depths. -/
theorem edits_reach_members (t : Editable) :
    (∀ c : Change, c.IsEdit → t.EditsInPlace c) ∧
    (∀ m id t', (addMethodInPlace m).exec t = (.ok id, t') →
      t.method? id = none ∧ t'.method? id = some m) ∧
    (∀ changes : List Change,
      changes.foldl (fun t c ↦ ((changeInPlace c).exec t).2) t = t.afterAll changes ∧
      t.KeepsPositions (t.afterAll changes) ∧
      (t.fieldNames.Nodup → (t.afterAll changes).fieldNames.Nodup) ∧
      (t.methodKeys.Nodup → (t.afterAll changes).methodKeys.Nodup)) ∧
    ∀ e t', finalizeInPlace.exec t = (.error e, t') →
      t'.frozen = t.frozen ∧ t'.decl.withoutDepths = t.decl.withoutDepths := by
  refine ⟨fun c hc ↦ editsInPlace hc t, fun m id t' ↦ method?_of_addMethodInPlace,
    fun changes ↦ ?_, fun e t' h ↦ ?_⟩
  · obtain ⟨hkept, hnames, hkeys⟩ := t.gains_afterAll changes
    refine ⟨?_, keepsPositions_of_isPrefix hkept, hnames, hkeys⟩
    simp only [snd_exec_changeInPlace]
    rfl
  · rw [exec_finalizeInPlace] at h
    refine ⟨frozen_of_finalize_error h, ?_⟩
    have hsame := t.withoutDepths_finalize
    rwa [h] at hsame

/-- A field that is declared again is refused, other edits go through, and neither the method nor
the names of the fields suffer. -/
theorem grown_edits_reach_members :
    (changeInPlace (.addField ⟨Flag.static, "f", .cls "k.P"⟩)).exec (ofDecl grown) =
        (.error (.duplicateMember "k.P" "f"), ofDecl grown) ∧
      (∃ m', ((ofDecl grown).afterAll growing).method? ⟨0⟩ = some m' ∧ m'.name = "m" ∧
        m'.type = ⟨[], .void⟩) ∧
      ((ofDecl grown).afterAll growing).fieldNames.Nodup := by
  obtain ⟨hedits, -, hturns, -⟩ := (ofDecl grown).edits_reach_members
  obtain ⟨-, hpositions, hnames, -⟩ := hturns growing
  refine ⟨((hedits (.addField _) trivial).fails _ _).mpr ⟨rfl, by cbv⟩, hpositions ⟨0⟩ _ rfl,
    hnames ?_⟩
  decide

end Editable

end Hotswap
