import Hotswap.Error.Basic
import Hotswap.Types.Descriptor

/-!
# Reading descriptors

A scan goes through a descriptor from left to right and can be asked for a type, for a method type
or whether it is at the end. What it has consumed and how many array dimensions it has counted
stay as a failing request left them.
-/

namespace Hotswap

/-- The greatest number of array dimensions in a descriptor. -/
def maxDimensions : Nat := 255

/-- A descriptor that is being read. -/
structure DescriptorScan where
  /-- The whole descriptor, for the wording of errors. -/
  input : String
  /-- What has not been consumed. -/
  rest : List Char
  /-- The array dimensions counted so far in the current type. -/
  depth : Nat
  deriving DecidableEq, Repr

namespace DescriptorScan

/-- A scan at the start of a descriptor. -/
def start (input : String) : DescriptorScan := ⟨input, input.toList, 0⟩

/-- Splits a dotted or slashed name at a separator. A name without separators is one segment. -/
def segments (sep : Char) : List Char → List (List Char)
  | [] => [[]]
  | c :: cs =>
    if c = sep then [] :: segments sep cs
    else match segments sep cs with
      | [] => [[c]]
      | s :: ss => (c :: s) :: ss

/-- Tells whether a slashed name is one that a descriptor may hold: no segment is empty, and it
holds no dot, bracket or parenthesis. -/
def isClassName (name : List Char) : Bool :=
  (segments '/' name).all (!·.isEmpty) &&
    !name.any fun c ↦ c == '.' || c == '[' || c == '(' || c == ')'

/-- The separator of a dotted name for the one in a descriptor. -/
def dotted (c : Char) : Char := if c = '/' then '.' else c

/-- Reads a class name up to its semicolon; the letter `L` has been consumed. -/
def className (s : DescriptorScan) : Except Error String × DescriptorScan :=
  if s.rest.contains ';' then
    let name := s.rest.takeWhile (· != ';')
    if isClassName name then
      (.ok (String.ofList (name.map dotted)), { s with rest := s.rest.drop (name.length + 1) })
    else (.error (.malformed (.className (String.ofList name) s.input)), s)
  else (.error (.malformed (.classNameOpen s.input)), s)

/-- Reads a type that is not void from the given characters. -/
def fieldTypeFrom (input : String) (depth : Nat) :
    List Char → Except Error Ty × DescriptorScan
  | [] => (.error (.malformed (.descriptorEnd input)), ⟨input, [], depth⟩)
  | '[' :: rest =>
    if maxDimensions < depth + 1 then
      (.error (.recursionLimit maxDimensions), ⟨input, rest, depth + 1⟩)
    else
      match fieldTypeFrom input (depth + 1) rest with
      | (.ok element, s) => (.ok (.array element), { s with depth := s.depth - 1 })
      | (.error e, s) => (.error e, s)
  | 'L' :: rest =>
    match className ⟨input, rest, depth⟩ with
    | (.ok name, s) => (.ok (.cls name), s)
    | (.error e, s) => (.error e, s)
  | c :: rest =>
    match Primitive.ofLetter? c with
    | some kind => (.ok (.prim kind), ⟨input, rest, depth⟩)
    | none => (.error (.malformed (.typeCharacter c input)), ⟨input, rest, depth⟩)

/-- Reads a type that is not void. -/
def fieldType (s : DescriptorScan) : Except Error Ty × DescriptorScan :=
  fieldTypeFrom s.input s.depth s.rest

/-- Reads the result type of a method. -/
def resultType (s : DescriptorScan) : Except Error Ty × DescriptorScan :=
  match s.rest with
  | 'V' :: rest => (.ok .void, { s with rest })
  | _ => s.fieldType

/-- Fails unless everything has been consumed. -/
def atEnd (s : DescriptorScan) : Except Error Unit :=
  if s.rest.isEmpty then .ok ()
  else .error (.malformed (.trailingCharacters (String.ofList s.rest) s.input))

/-- Reading a class name consumes at least its semicolon. -/
theorem length_className_lt {s : DescriptorScan} {name : String} {t : DescriptorScan}
    (h : s.className = (.ok name, t)) : t.rest.length < s.rest.length := by
  unfold className at h
  split at h
  · next hc =>
    dsimp only at h
    split at h
    · cases h
      have : 0 < s.rest.length := by
        cases hr : s.rest with
        | nil => simp [hr] at hc
        | cons => simp
      simp only [List.length_drop]
      omega
    · cases h
  · cases h

/-- Reading a type consumes at least one character. -/
theorem length_fieldTypeFrom_lt {input : String} {depth : Nat} {cs : List Char} {ty : Ty}
    {t : DescriptorScan} (h : fieldTypeFrom input depth cs = (.ok ty, t)) :
    t.rest.length < cs.length := by
  induction cs generalizing depth ty t with
  | nil => simp [fieldTypeFrom] at h
  | cons c rest ih =>
    unfold fieldTypeFrom at h
    split at h
    · cases ‹_ :: _ = []›
    · next heq =>
      cases heq
      split at h
      · cases h
      · split at h
        · next hs =>
          cases h
          have := ih hs
          simp only [List.length_cons]
          omega
        · cases h
    · next heq =>
      cases heq
      split at h
      · next hs =>
        cases h
        have := length_className_lt hs
        simp only [List.length_cons] at this ⊢
        omega
      · cases h
    · next heq =>
      cases heq
      split at h
      · cases h
        simp
      · cases h

/-- Reads parameters up to the closing parenthesis; those before it are given in reverse. -/
def parameters (s : DescriptorScan) (acc : List Ty) : Except Error (List Ty) × DescriptorScan :=
  match s.rest with
  | [] => (.error (.malformed (.parameterListOpen s.input)), s)
  | ')' :: rest => (.ok acc.reverse, { s with rest })
  | _ =>
    match _h : fieldType s with
    | (.ok ty, t) => parameters t (ty :: acc)
    | (.error e, t) => (.error e, t)
termination_by s.rest.length
decreasing_by exact length_fieldTypeFrom_lt _h

/-- Reads a complete method descriptor, to the end of the input. -/
def methodType (s : DescriptorScan) : Except Error MethodTy × DescriptorScan :=
  match s.rest with
  | [] => (.error (.malformed (.descriptorEnd s.input)), s)
  | '(' :: rest =>
    match parameters { s with rest } [] with
    | (.error e, t) => (.error e, t)
    | (.ok params, t) =>
      match t.resultType with
      | (.error e, t) => (.error e, t)
      | (.ok result, t) =>
        match t.atEnd with
        | .error e => (.error e, t)
        | .ok _ => (.ok ⟨params, result⟩, t)
  | _ :: rest => (.error (.malformed (.noParameterList s.input)), { s with rest })

end DescriptorScan

/-- The type that a descriptor describes. -/
def Ty.ofDescriptor (input : String) : Except Error Ty :=
  match (DescriptorScan.start input).fieldType with
  | (.error e, _) => .error e
  | (.ok t, s) => s.atEnd.map fun _ ↦ t

/-- The method type that a descriptor describes. -/
def MethodTy.ofDescriptor (input : String) : Except Error MethodTy :=
  (DescriptorScan.start input).methodType.1

end Hotswap
