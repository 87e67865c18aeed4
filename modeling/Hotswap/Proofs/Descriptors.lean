import Hotswap.Proofs.Results
import Hotswap.Types.DescriptorScan

/-!
# Types and their descriptors

A descriptor is read back as the type that it was written for exactly when the type can be
described at all: it is not void, has no more dimensions than a descriptor may have, and names its
class by segments that are not empty and hold no mark of descriptors.
-/

namespace Hotswap

/-- A dotted class name that a descriptor can hold. -/
structure IsClassName (name : String) : Prop where
  segments : ∀ s ∈ DescriptorScan.segments '.' name.toList, s ≠ []
  marks : ∀ c ∈ name.toList, c ∉ ['/', ';', '[', '(', ')']

/-- A type that a descriptor can describe where void is not allowed. -/
structure Ty.Describable (t : Ty) : Prop where
  dimensions : t.dimensions ≤ 255
  bottom : t.bottom ≠ .void
  className : ∀ name, t.className? = some name → IsClassName name

/-- A method type that a descriptor can describe: only its whole result may be void. -/
structure MethodTy.Describable (m : MethodTy) : Prop where
  params : ∀ t ∈ m.params, t.Describable
  result : m.result = .void ∨ m.result.Describable

private theorem describable_prim (kind : Primitive) : (Ty.prim kind).Describable :=
  ⟨Nat.zero_le _, Ty.noConfusion, fun _ h ↦ by cases h⟩

private theorem describable_cls {name : String} :
    (Ty.cls name).Describable ↔ IsClassName name :=
  ⟨fun h ↦ h.className name rfl, fun h ↦ ⟨Nat.zero_le _, Ty.noConfusion, by
    rintro _ ⟨⟩
    exact h⟩⟩

private theorem describable_array {e : Ty} :
    (Ty.array e).Describable ↔ e.dimensions + 1 ≤ 255 ∧ e.Describable :=
  ⟨fun h ↦ ⟨h.dimensions, Nat.le_of_succ_le h.dimensions, h.bottom, h.className⟩,
    fun ⟨hd, h⟩ ↦ ⟨hd, h.bottom, h.className⟩⟩

namespace DescriptorScan

/-! ### Class names -/

/-- A name has no empty segment for one separator when the name with the other separator has
none for that. -/
private theorem segments_map (f : Char → Char) (a b : Char) (cs : List Char)
    (h : ∀ c ∈ cs, f c = b ↔ c = a) :
    segments b (cs.map f) = (segments a cs).map (List.map f) := by
  induction cs with
  | nil => rfl
  | cons c cs ih =>
    have ih := ih fun d hd ↦ h d (.tail _ hd)
    have hc := h c (.head _)
    by_cases he : c = a
    · have hb : f c = b := hc.mpr he
      simp only [List.map_cons, segments, if_pos hb, if_pos he, ih, List.map_nil]
    · have hb : f c ≠ b := fun hb ↦ he (hc.mp hb)
      simp only [List.map_cons, segments, if_neg hb, if_neg he, ih]
      cases segments a cs <;> rfl

private theorem slashed_eq_slash {c : Char} (h : c ≠ '/') : slashed c = '/' ↔ c = '.' := by
  unfold slashed
  split <;> simp_all

private theorem dotted_eq_dot {c : Char} (h : c ≠ '.') : dotted c = '.' ↔ c = '/' := by
  unfold dotted
  split <;> simp_all

private theorem dotted_slashed {c : Char} (h : c ≠ '/') : dotted (slashed c) = c := by
  unfold slashed
  split
  · next hc =>
    subst hc
    rfl
  · simp [dotted, h]

private theorem slashed_dotted {c : Char} (h : c ≠ '.') : slashed (dotted c) = c := by
  unfold dotted
  split
  · next hc =>
    subst hc
    rfl
  · simp [slashed, h]

private theorem slashed_ne {c d : Char} (hd : d ≠ '/') (h : c ≠ d) : slashed c ≠ d := by
  unfold slashed
  split
  · exact hd.symm
  · exact h

private theorem dotted_ne {c d : Char} (hd : d ≠ '.') (h : c ≠ d) : dotted c ≠ d := by
  unfold dotted
  split
  · exact hd.symm
  · exact h

private theorem all_nonempty_map {f : Char → Char} {ss : List (List Char)} :
    ((ss.map (List.map f)).all (!·.isEmpty)) = true ↔ ∀ s ∈ ss, s ≠ [] := by
  simp

/-- The name in front of a semicolon is read with dots for its slashes. -/
theorem className_append {name : String} (h : IsClassName name) (input : String)
    (rest : List Char) (depth : Nat) :
    className ⟨input, name.toList.map slashed ++ ';' :: rest, depth⟩ =
      (.ok name, ⟨input, rest, depth⟩) := by
  have hslash : ∀ c ∈ name.toList, c ≠ '/' := by
    rintro c hc rfl
    exact h.marks _ hc (by simp)
  have hsemi : ∀ c ∈ name.toList.map slashed, (c != ';') = true := by
    intro c hc
    obtain ⟨d, hd, rfl⟩ := List.mem_map.mp hc
    have hne : d ≠ ';' := by
      rintro rfl
      exact h.marks _ hd (by simp)
    simpa using slashed_ne (by decide) hne
  have htake : (name.toList.map slashed ++ ';' :: rest).takeWhile (· != ';') =
      name.toList.map slashed := by
    rw [List.takeWhile_append_of_pos hsemi]
    simp
  have hmarks : ∀ c ∈ name.toList.map slashed, c ≠ '.' ∧ c ≠ '[' ∧ c ≠ '(' ∧ c ≠ ')' := by
    intro c hc
    obtain ⟨d, hd, rfl⟩ := List.mem_map.mp hc
    have hm := h.marks d hd
    simp only [List.mem_cons, List.not_mem_nil, or_false, not_or] at hm
    refine ⟨?_, slashed_ne (by decide) hm.2.2.1, slashed_ne (by decide) hm.2.2.2.1,
      slashed_ne (by decide) hm.2.2.2.2⟩
    unfold slashed
    split
    · decide
    · assumption
  have hname : isClassName (name.toList.map slashed) = true := by
    rw [isClassName, segments_map slashed '.' '/' _ fun c hc ↦ slashed_eq_slash (hslash c hc),
      all_nonempty_map.mpr h.segments, Bool.true_and, Bool.not_eq_true', List.any_eq_false]
    intro c hc
    simpa [and_assoc] using hmarks c hc
  have hback : (name.toList.map slashed).map dotted = name.toList := by
    have hid : (name.toList.map slashed).map dotted = name.toList.map id := by
      rw [List.map_map]
      exact List.map_congr_left fun c hc ↦ dotted_slashed (hslash c hc)
    rw [hid, List.map_id]
  have hdrop : (name.toList.map slashed ++ ';' :: rest).drop
      ((name.toList.map slashed).length + 1) = rest := by
    rw [← List.drop_drop, List.drop_left]
    rfl
  have hmem : (name.toList.map slashed ++ ';' :: rest).contains ';' = true := by simp
  simp only [className, hmem, htake, hname, hback, hdrop, if_true, String.ofList_toList]

private theorem takeWhile_semicolon {cs : List Char} (h : ';' ∈ cs) :
    ∃ rest, cs = cs.takeWhile (· != ';') ++ ';' :: rest := by
  induction cs with
  | nil => cases h
  | cons c cs ih =>
    by_cases hc : c = ';'
    · subst hc
      exact ⟨cs, by simp⟩
    · obtain ⟨rest, hrest⟩ := ih ((List.mem_cons.mp h).resolve_left (Ne.symm hc))
      refine ⟨rest, ?_⟩
      rw [List.takeWhile_cons_of_pos (by simpa using hc), List.cons_append, ← hrest]

private theorem ne_semicolon_of_mem_takeWhile {cs : List Char} {c : Char}
    (h : c ∈ cs.takeWhile (· != ';')) : c ≠ ';' := by
  have hall := List.all_eq_true.mp (List.all_takeWhile (p := (· != ';')) (l := cs)) c h
  simpa using hall

/-- A class name that is read stood in front of a semicolon, with slashes for its dots. -/
theorem eq_of_className {s t : DescriptorScan} {name : String}
    (h : s.className = (.ok name, t)) :
    IsClassName name ∧ s.rest = name.toList.map slashed ++ ';' :: t.rest ∧
      t.input = s.input ∧ t.depth = s.depth := by
  simp only [className] at h
  split at h
  · next hmem =>
    split at h
    · next hname =>
      cases h
      obtain ⟨rest, hrest⟩ := takeWhile_semicolon (by simpa using hmem)
      generalize hraw : s.rest.takeWhile (· != ';') = raw at *
      simp only [isClassName, Bool.and_eq_true, List.all_eq_true, Bool.not_eq_true',
        List.any_eq_false, Bool.or_eq_true, beq_iff_eq, not_or] at hname
      obtain ⟨hsegments, hmarks⟩ := hname
      have hback : (raw.map dotted).map slashed = raw := by
        have hid : (raw.map dotted).map slashed = raw.map id := by
          rw [List.map_map]
          exact List.map_congr_left fun c hc ↦ slashed_dotted (hmarks c hc).1.1.1
        rw [hid, List.map_id]
      refine ⟨⟨?_, ?_⟩, ?_, rfl, rfl⟩
      · rw [String.toList_ofList,
          segments_map dotted '/' '.' _ fun c hc ↦ dotted_eq_dot (hmarks c hc).1.1.1]
        intro seg hseg
        obtain ⟨raw', hraw', rfl⟩ := List.mem_map.mp hseg
        simpa using hsegments raw' hraw'
      · rw [String.toList_ofList]
        intro c hc
        obtain ⟨d, hd, rfl⟩ := List.mem_map.mp hc
        have hsemi : d ≠ ';' := ne_semicolon_of_mem_takeWhile (hraw ▸ hd)
        have hm := hmarks d hd
        simp only [List.mem_cons, List.not_mem_nil, or_false, not_or]
        refine ⟨?_, dotted_ne (by decide) hsemi, dotted_ne (by decide) hm.1.1.2,
          dotted_ne (by decide) hm.1.2, dotted_ne (by decide) hm.2⟩
        unfold dotted
        split
        · decide
        · assumption
      · rw [String.toList_ofList, hback, hrest, ← List.drop_drop, List.drop_left]
        rfl
    · cases h
  · cases h

/-! ### Types -/

/-- The characters of a describable type are read as the type. -/
theorem fieldTypeFrom_append {t : Ty} (h : t.Describable) (input : String) (depth : Nat)
    (hdepth : depth + t.dimensions ≤ 255) (rest : List Char) :
    fieldTypeFrom input depth (t.descriptorChars ++ rest) = (.ok t, ⟨input, rest, depth⟩) := by
  induction t generalizing depth with
  | void => exact absurd rfl h.bottom
  | prim kind =>
    cases kind <;> rfl
  | cls name =>
    have hname := className_append (describable_cls.mp h) input rest depth
    simp only [Ty.descriptorChars, List.cons_append, List.append_assoc, List.nil_append,
      fieldTypeFrom, hname]
  | array e ih =>
    simp only [Ty.dimensions] at hdepth
    have he := ih (describable_array.mp h).2 (depth + 1) (by omega)
    have hlt : ¬maxDimensions < depth + 1 := by
      simp only [maxDimensions]
      omega
    simp only [Ty.descriptorChars, List.cons_append, fieldTypeFrom, hlt, if_false, he,
      Nat.add_sub_cancel]

/-- A type that is read is describable, and its characters are what was consumed. -/
theorem eq_of_fieldTypeFrom {input : String} {depth : Nat} {cs : List Char} {t : Ty}
    {s : DescriptorScan} (hdepth : depth ≤ 255)
    (h : fieldTypeFrom input depth cs = (.ok t, s)) :
    t.Describable ∧ depth + t.dimensions ≤ 255 ∧ cs = t.descriptorChars ++ s.rest ∧
      s.input = input ∧ s.depth = depth := by
  induction cs generalizing depth t s with
  | nil => simp [fieldTypeFrom] at h
  | cons c rest ih =>
    unfold fieldTypeFrom at h
    split at h
    · cases ‹_ :: _ = []›
    · next heq =>
      cases heq
      split at h
      · cases h
      · next hlt =>
        simp only [maxDimensions] at hlt
        split at h
        · next e u hu =>
          cases h
          obtain ⟨he, hdims, hrest, hin, hd⟩ := ih (by omega) hu
          have hdims : depth + (e.dimensions + 1) ≤ 255 := by omega
          refine ⟨describable_array.mpr ⟨by omega, he⟩, hdims, ?_, hin, by simp [hd]⟩
          simp only [Ty.descriptorChars, List.cons_append, ← hrest]
        · cases h
    · next heq =>
      cases heq
      split at h
      · next name u hu =>
        cases h
        obtain ⟨hname, hrest, hin, hd⟩ := eq_of_className hu
        refine ⟨describable_cls.mpr hname, hdepth, ?_, hin, hd⟩
        simp only [Ty.descriptorChars, List.cons_append, List.append_assoc, List.nil_append,
          ← hrest]
      · cases h
    · next heq =>
      cases heq
      split at h
      · next kind hkind =>
        cases h
        have hletter : kind.letter = c := by
          simpa [Primitive.ofLetter?] using List.find?_some hkind
        refine ⟨describable_prim kind, hdepth, ?_, rfl, rfl⟩
        simp only [Ty.descriptorChars, hletter, List.cons_append, List.nil_append]
      · cases h

private theorem descriptorChars_cons {t : Ty} (h : t.bottom ≠ .void) :
    ∃ c cs, t.descriptorChars = c :: cs ∧ c ≠ ')' ∧ c ≠ 'V' := by
  cases t with
  | void => exact absurd rfl h
  | prim kind => cases kind <;> exact ⟨_, _, rfl, by decide, by decide⟩
  | cls name => exact ⟨_, _, rfl, by decide, by decide⟩
  | array e => exact ⟨_, _, rfl, by decide, by decide⟩

/-- Describable parameters are read up to the closing parenthesis. -/
theorem parameters_append {params : List Ty} (h : ∀ t ∈ params, t.Describable) (input : String)
    (rest : List Char) (acc : List Ty) :
    parameters ⟨input, params.flatMap Ty.descriptorChars ++ ')' :: rest, 0⟩ acc =
      (.ok (acc.reverse ++ params), ⟨input, rest, 0⟩) := by
  induction params generalizing acc with
  | nil =>
    unfold parameters
    simp
  | cons t params ih =>
    have ht := h t (.head _)
    obtain ⟨c, cs, hcs, hclose, -⟩ := descriptorChars_cons ht.bottom
    have hfirst := fieldTypeFrom_append ht input 0 (by simpa using ht.dimensions)
      (params.flatMap Ty.descriptorChars ++ ')' :: rest)
    have hrest := ih (fun u hu ↦ h u (.tail _ hu)) (t :: acc)
    rw [List.flatMap_cons, List.append_assoc]
    unfold parameters
    split
    · next heq => simp [hcs] at heq
    · next heq =>
      simp only [hcs, List.cons_append, List.cons.injEq] at heq
      exact absurd heq.1 hclose
    · split
      · next u s hu =>
        rw [fieldType, hfirst] at hu
        cases hu
        simpa using hrest
      · next hu =>
        rw [fieldType, hfirst] at hu
        cases hu

/-- Parameters that are read are describable, and their characters are what was consumed. -/
theorem eq_of_parameters {s t : DescriptorScan} {acc params : List Ty} (hdepth : s.depth = 0)
    (h : parameters s acc = (.ok params, t)) :
    ∃ read, params = acc.reverse ++ read ∧ (∀ u ∈ read, u.Describable) ∧
      s.rest = read.flatMap Ty.descriptorChars ++ ')' :: t.rest ∧ t.input = s.input ∧
      t.depth = 0 := by
  induction s, acc using parameters.induct generalizing params t with
  | case1 s acc hnil =>
    unfold parameters at h
    split at h
    · cases h
    · simp_all
    · simp_all
  | case2 s acc rest hclose =>
    unfold parameters at h
    split at h
    · cases h
    · next heq =>
      cases h
      exact ⟨[], by simp, by simp, by simpa using heq, rfl, hdepth⟩
    · simp_all
  | case3 s acc ty u hu hnil hclose ih =>
    unfold parameters at h
    split at h
    · cases h
    · simp_all
    · split at h
      · next hu' =>
        rw [hu] at hu'
        cases hu'
        obtain ⟨hty, -, hrest, hin, hd⟩ := eq_of_fieldTypeFrom (by omega) hu
        obtain ⟨read, rfl, hread, hrest', hin', hd'⟩ := ih (hd.trans hdepth) h
        refine ⟨ty :: read, by simp, ?_, ?_, hin'.trans hin, hd'⟩
        · simpa using ⟨hty, hread⟩
        · rw [hrest, hrest', List.flatMap_cons, List.append_assoc]
      · cases h
  | case4 s acc e u hu hnil hclose =>
    unfold parameters at h
    split at h
    · cases h
    · simp_all
    · split at h
      · next hu' =>
        rw [hu] at hu'
        cases hu'
      · cases h

/-- The result of a describable method type is read in front of anything. -/
theorem resultType_append {t : Ty} (h : t = .void ∨ t.Describable) (input : String)
    (rest : List Char) :
    resultType ⟨input, t.descriptorChars ++ rest, 0⟩ = (.ok t, ⟨input, rest, 0⟩) := by
  rcases h with rfl | ht
  · rfl
  · obtain ⟨c, cs, hcs, -, hV⟩ := descriptorChars_cons ht.bottom
    unfold resultType
    split
    · next heq =>
      simp only [hcs, List.cons_append, List.cons.injEq] at heq
      exact absurd heq.1 hV
    · exact fieldTypeFrom_append ht input 0 (by simpa using ht.dimensions) rest

/-- A result type that is read is void or describable, and its characters were consumed. -/
theorem eq_of_resultType {s u : DescriptorScan} {t : Ty} (hdepth : s.depth = 0)
    (h : s.resultType = (.ok t, u)) :
    (t = .void ∨ t.Describable) ∧ s.rest = t.descriptorChars ++ u.rest := by
  unfold resultType at h
  split at h
  · next heq =>
    cases h
    exact ⟨.inl rfl, heq⟩
  · obtain ⟨ht, -, hrest, -⟩ := eq_of_fieldTypeFrom (by omega) h
    exact ⟨.inr ht, hrest⟩

private theorem atEnd_eq_ok {s : DescriptorScan} {u : Unit} : s.atEnd = .ok u ↔ s.rest = [] := by
  unfold atEnd
  split <;> simp_all

/-! ### Failures -/

private theorem fails_fieldTypeFrom {input : String} {depth : Nat} {cs : List Char} {e : Error}
    {s : DescriptorScan} (h : fieldTypeFrom input depth cs = (.error e, s)) :
    (∃ cause, e = .malformed cause) ∨ ∃ limit, e = .recursionLimit limit := by
  induction cs generalizing depth e s with
  | nil =>
    cases h
    exact .inl ⟨_, rfl⟩
  | cons c rest ih =>
    unfold fieldTypeFrom at h
    split at h
    · cases ‹_ :: _ = []›
    · next heq =>
      cases heq
      split at h
      · cases h
        exact .inr ⟨_, rfl⟩
      · split at h
        · cases h
        · next hs =>
          cases h
          exact ih hs
    · split at h
      · cases h
      · next hs =>
        cases h
        simp only [className] at hs
        split at hs
        · split at hs <;> cases hs
          exact .inl ⟨_, rfl⟩
        · cases hs
          exact .inl ⟨_, rfl⟩
    · split at h <;> cases h
      exact .inl ⟨_, rfl⟩

private theorem fails_parameters {s t : DescriptorScan} {acc : List Ty} {e : Error}
    (h : parameters s acc = (.error e, t)) :
    (∃ cause, e = .malformed cause) ∨ ∃ limit, e = .recursionLimit limit := by
  induction s, acc using parameters.induct with
  | case1 s acc hnil =>
    unfold parameters at h
    split at h
    · cases h
      exact .inl ⟨_, rfl⟩
    · simp_all
    · simp_all
  | case2 s acc rest hclose =>
    unfold parameters at h
    split at h <;> simp_all
  | case3 s acc ty u hu hnil hclose ih =>
    unfold parameters at h
    split at h
    · simp_all
    · simp_all
    · split at h
      · next hu' =>
        rw [hu] at hu'
        cases hu'
        exact ih h
      · next hu' =>
        rw [hu] at hu'
        cases hu'
  | case4 s acc e' u hu hnil hclose =>
    unfold parameters at h
    split at h
    · simp_all
    · simp_all
    · split at h
      · cases hu.symm.trans ‹_›
      · next hu' =>
        cases h
        exact fails_fieldTypeFrom hu'

private theorem fails_atEnd {s : DescriptorScan} {e : Error} (h : s.atEnd = .error e) :
    ∃ cause, e = .malformed cause := by
  unfold atEnd at h
  split at h <;> cases h
  exact ⟨_, rfl⟩

/-- A method descriptor is refused as malformed or for its dimensions. -/
theorem fails_methodType {s t : DescriptorScan} {e : Error} (h : s.methodType = (.error e, t)) :
    (∃ cause, e = .malformed cause) ∨ ∃ limit, e = .recursionLimit limit := by
  unfold methodType at h
  split at h
  · cases h
    exact .inl ⟨_, rfl⟩
  · split at h
    · next hp =>
      cases h
      exact fails_parameters hp
    · split at h
      · next hr =>
        cases h
        unfold resultType at hr
        split at hr
        · cases hr
        · exact fails_fieldTypeFrom hr
      · split at h
        · next ha =>
          cases h
          exact .inl (fails_atEnd ha)
        · cases h
  · cases h
    exact .inl ⟨_, rfl⟩

end DescriptorScan

open DescriptorScan

namespace Ty

/-- A text describes a type exactly when the type is describable and this is its descriptor. -/
theorem ofDescriptor_eq_ok {s : String} {t : Ty} :
    ofDescriptor s = .ok t ↔ t.Describable ∧ t.descriptor = s := by
  constructor
  · intro h
    unfold ofDescriptor at h
    split at h
    · cases h
    · next u v hu =>
      obtain ⟨_, hend, rfl⟩ := map_eq_ok.mp h
      obtain ⟨ht, -, hrest, -⟩ := eq_of_fieldTypeFrom (Nat.zero_le _) hu
      rw [atEnd_eq_ok.mp hend, List.append_nil] at hrest
      exact ⟨ht, by rw [descriptor, ← hrest]; exact String.ofList_toList⟩
  · rintro ⟨ht, rfl⟩
    have h := fieldTypeFrom_append ht t.descriptor 0 (by simpa using ht.dimensions) []
    rw [List.append_nil] at h
    simp only [ofDescriptor, start, fieldType, descriptor, String.toList_ofList] at h ⊢
    rw [h]
    rfl

/-- A descriptor is refused as malformed or for its dimensions. -/
theorem fails_ofDescriptor {s : String} {e : Error} (h : ofDescriptor s = .error e) :
    (∃ cause, e = .malformed cause) ∨ ∃ limit, e = .recursionLimit limit := by
  unfold ofDescriptor at h
  split at h
  · next hu =>
    cases h
    exact fails_fieldTypeFrom hu
  · exact .inl (fails_atEnd (map_eq_error.mp h))

end Ty

namespace MethodTy

/-- A text describes a method type exactly when the type is describable and this is its
descriptor. -/
theorem ofDescriptor_eq_ok {s : String} {m : MethodTy} :
    ofDescriptor s = .ok m ↔ m.Describable ∧ m.descriptor = s := by
  constructor
  · intro h
    simp only [ofDescriptor, methodType] at h
    split at h
    · cases h
    · next rest hs =>
      split at h
      · cases h
      · next params u hp =>
        split at h
        · cases h
        · next result v hr =>
          split at h
          · cases h
          · next hend =>
            cases h
            obtain ⟨read, rfl, hread, hrest, -, hd⟩ := eq_of_parameters rfl hp
            obtain ⟨hresult, hrest'⟩ := eq_of_resultType hd hr
            rw [atEnd_eq_ok.mp hend, List.append_nil] at hrest'
            refine ⟨⟨by simpa using hread, hresult⟩, ?_⟩
            have hs : s.toList = '(' :: rest := hs
            have hchars : parameterChars params ++ result.descriptorChars = s.toList := by
              rw [parameterChars, ← hrest', List.cons_append, List.append_assoc,
                List.singleton_append, ← hrest, ← hs]
            rw [descriptor, descriptorChars]
            exact (congrArg String.ofList hchars).trans String.ofList_toList
    · cases h
  · rintro ⟨hm, rfl⟩
    have hp := parameters_append hm.params m.descriptor m.result.descriptorChars []
    have hr := resultType_append hm.result m.descriptor []
    rw [List.append_nil] at hr
    have hs : m.descriptor.toList =
        '(' :: (m.params.flatMap Ty.descriptorChars ++ ')' :: m.result.descriptorChars) := by
      simp [descriptor, descriptorChars, parameterChars]
    simp only [ofDescriptor, methodType, start, hs, hp, hr, List.reverse_nil, List.nil_append]
    rfl

/-- A method descriptor is refused as malformed or for its dimensions. -/
theorem fails_ofDescriptor {s : String} {e : Error} (h : ofDescriptor s = .error e) :
    (∃ cause, e = .malformed cause) ∨ ∃ limit, e = .recursionLimit limit :=
  fails_methodType (Prod.ext h rfl)

end MethodTy

end Hotswap
