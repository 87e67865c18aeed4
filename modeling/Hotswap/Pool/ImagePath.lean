import Hotswap.Types.DescriptorScan

/-!
# Paths of class files

The image of a class stands below a root directory, in a directory for each segment of the class
name but the last. Paths are texts: a segment that begins with a slash starts anew, and no second
slash is put where there is one.
-/

namespace Hotswap.ImagePath

/-- The extension of class files. -/
def extension : List Char := "tpc".toList

/-- A path continued by a segment; paths are written backwards here, so that this takes no longer
than the segment is. -/
def pushBehind (backwards segment : List Char) : List Char :=
  if segment.head? = some '/' then segment.reverse
  else if backwards.isEmpty || backwards.head? = some '/' then segment.reverse ++ backwards
  else segment.reverse ++ '/' :: backwards

/-- A path continued by segments. -/
def extend (path : List Char) (segments : List (List Char)) : List Char :=
  (segments.foldl pushBehind path.reverse).reverse

/-- Without segments a path stays as it is. -/
@[simp] theorem extend_nil (path : List Char) : extend path [] = path := by
  simp [extend]

/-- A segment that does not begin with a slash goes behind the path and one slash. -/
theorem extend_cons {path segment : List Char} (rest : List (List Char))
    (h : segment.head? ≠ some '/') :
    extend path (segment :: rest) =
      if path.isEmpty || path.getLast? = some '/' then extend (path ++ segment) rest
      else extend (path ++ '/' :: segment) rest := by
  simp only [extend, List.foldl_cons, pushBehind, h, if_false, List.isEmpty_reverse,
    List.head?_reverse]
  split <;> simp [*]

/-- A segment that begins with a slash starts anew. -/
theorem extend_cons_slash (path segment : List Char) (rest : List (List Char)) :
    extend path (('/' :: segment) :: rest) = extend ('/' :: segment) rest := by
  simp [extend, pushBehind]

/-- Tells whether a component of a path names nothing new. -/
def isVacant (component : List Char) : Bool := component.isEmpty || component == ['.']

/-- A file name without its last extension; a dot in front begins no extension. -/
def stem (name : List Char) : List Char :=
  match (name.reverse.dropWhile (· != '.')).drop 1 with
  | [] => name
  | before => before.reverse

/-- Components joined by slashes. -/
def join (components : List (List Char)) : List Char := ['/'].intercalate components

/-- A path with the extension of class files in place of that of its file name; a path without
file name stays as it is. -/
def withExtension (path : List Char) : List Char :=
  match ((DescriptorScan.segments '/' path).reverse.dropWhile isVacant) with
  | [] => path
  | name :: before =>
    if name = ['.', '.'] then path
    else join (before.reverse ++ [stem name ++ '.' :: extension])

/-- The path at which the image of a class is kept, below a root. -/
def path (root name : List Char) : List Char :=
  withExtension (extend root (DescriptorScan.segments '.' name))

/-- The segments of a path that name something. -/
def names (path : List Char) : List (List Char) :=
  (DescriptorScan.segments '/' path).filter (!isVacant ·)

/-- The root with which an absolute path begins. -/
def rootOf (path : List Char) : List (List Char) :=
  if path.head? = some '/' then [['/']] else []

/-- The components of a path: its root, if it has one, and then what its segments name. -/
def components (path : List Char) : List (List Char) := rootOf path ++ names path

/-- The path that has these components. -/
def ofComponents : List (List Char) → List Char
  | ['/'] :: names => '/' :: join names
  | names => join names

/-- Tells whether a class name is one whose image is looked for in files. -/
def isSought (name : List Char) : Bool :=
  (DescriptorScan.segments '.' name).all fun s ↦
    !s.isEmpty && !s.contains '/' && !s.contains '\\'

end Hotswap.ImagePath
