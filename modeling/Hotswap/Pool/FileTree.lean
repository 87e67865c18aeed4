import Hotswap.Error.Basic
import Hotswap.Pool.ImagePath
import Hotswap.Table

/-!
# Trees of files

Directories and files by the components of their paths, of which the first one tells absolute paths
from relative ones. Names are limited to 255 bytes and paths to 4095, and no path may hold a NUL.
-/

namespace Hotswap

/-- Directories and files. -/
structure FileTree where
  /-- The directories that were made; every directory on the way to one of them is there too. -/
  directories : List (List (List Char))
  files : Table (List (List Char)) (List UInt8)
  deriving DecidableEq, Repr

namespace FileTree

/-- The number of bytes of a text. -/
def byteLength : List Char → Nat
  | [] => 0
  | c :: cs => c.utf8Size + byteLength cs

/-- Tells whether a name is too long for a directory entry. -/
def isLongName (name : List Char) : Bool := 255 < byteLength name

/-- What is wrong with a path, whatever the tree holds. -/
def pathFault? (path : List Char) : Option FileFault :=
  if path.any fun c ↦ c.toNat == 0 then some .nulInPath
  else if 4096 ≤ byteLength path then some .nameTooLong
  else none

/-- Tells whether a directory is there. -/
def hasDirectory (t : FileTree) (directory : List (List Char)) : Bool :=
  t.directories.any (directory.isPrefixOf ·)

/-- Makes a directory with all those on the way to it. -/
def makeDirectory (t : FileTree) (directory : List (List Char)) : FileTree :=
  if t.hasDirectory directory then t else { t with directories := directory :: t.directories }

/-- What comes before the first name that is too long. -/
def beforeLongName (components : List (List Char)) : List (List Char) :=
  components.takeWhile (!isLongName ·)

/-- Makes the directories on the way to a file. Those before a name that is too long stay. -/
def makeParents (t : FileTree) (path : List Char) : Except FileFault Unit × FileTree :=
  let parent := (ImagePath.components path).dropLast
  match pathFault? (ImagePath.ofComponents parent) with
  | some fault => (.error fault, t)
  | none =>
    let made := beforeLongName parent
    (if made.length < parent.length then .error .nameTooLong else .ok (), t.makeDirectory made)

/-- Writes a file whose directory exists. -/
def write (t : FileTree) (path : List Char) (content : List UInt8) :
    Except FileFault Unit × FileTree :=
  match pathFault? path with
  | some fault => (.error fault, t)
  | none =>
    let components := ImagePath.components path
    if components.any isLongName then (.error .nameTooLong, t)
    else (.ok (), { t with files := t.files.put components content })

/-- The content of a file, if there is one. A name that is too long is a fault only in a directory
that is there, since a missing directory ends the search before the names behind it are looked
at. -/
def read (t : FileTree) (path : List Char) : Except FileFault (Option (List UInt8)) :=
  match pathFault? path with
  | some fault => .error fault
  | none =>
    let components := ImagePath.components path
    let directory := beforeLongName components
    if directory.length < components.length then
      if t.hasDirectory directory then .error .nameTooLong else .ok none
    else .ok (t.files.get? components)

end FileTree

end Hotswap
