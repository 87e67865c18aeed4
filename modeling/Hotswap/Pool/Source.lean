import Hotswap.Class.Codec
import Hotswap.Pool.FileTree

/-!
# Sources of class images

A source keeps images by class name, in memory or in files. A classpath is a list of sources, of
which the first that has an image provides it.
-/

namespace Hotswap

/-- A source of class images. -/
inductive Source where
  | memory (images : Table String (List UInt8))
  | directory (root : List Char) (files : FileTree)
  deriving DecidableEq, Repr

namespace Source

/-- A source in memory without images. -/
def newMemory : Source := .memory .empty

/-- A source in an empty directory. -/
def newDirectory (root : List Char) : Source :=
  .directory root ⟨[ImagePath.components root], .empty⟩

/-- The image under a class name. Files are only looked for under names whose segments are file
names. -/
def find (s : Source) (name : String) : Except Error (Option (List UInt8)) :=
  match s with
  | .memory images => .ok (images.get? name)
  | .directory root files =>
    if ImagePath.isSought name.toList then
      (files.read (ImagePath.path root name.toList)).mapError .file
    else .ok none

/-- Keeps an image under a class name, in memory. -/
def add (s : Source) (name : String) (image : List UInt8) : Source :=
  match s with
  | .memory images => .memory (images.put name image)
  | .directory root files => .directory root files

/-- The number of images in memory. -/
def size : Source → Nat
  | .memory images => images.size
  | .directory _ files => files.files.size

/-- Keeps the image of a class under its name. A directory is made before the image. -/
def store (s : Source) (c : ClassDecl) : Except Error Unit × Source :=
  match s with
  | .memory images =>
    match c.encode with
    | .ok image => (.ok (), .memory (images.put c.name image))
    | .error e => (.error e, s)
  | .directory root files =>
    let path := ImagePath.path root c.name.toList
    match files.makeParents path with
    | (.error fault, files) => (.error (.file fault), .directory root files)
    | (.ok _, files) =>
      match c.encode with
      | .error e => (.error e, .directory root files)
      | .ok image =>
        let (result, files) := files.write path image
        (result.mapError .file, .directory root files)

end Source

/-- Every source there is; a classpath names them by their index. -/
structure Library where
  sources : Array Source
  deriving Repr

/-- Indices of sources, in the order in which they are asked. -/
abbrev Classpath := List Nat

/-- The image under a class name in the first source of a classpath that has one. A source that
fails ends the search. -/
def Library.find (lib : Library) (name : String) : Classpath → Except Error (Option (List UInt8))
  | [] => .ok none
  | i :: rest =>
    match lib.sources[i]? with
    | none => lib.find name rest
    | some source =>
      match source.find name with
      | .ok none => lib.find name rest
      | .ok (some image) => .ok (some image)
      | .error e => .error e

end Hotswap
