import Hotswap.Error.Machine
import Hotswap.Error.Malformed
import Hotswap.Error.Unverifiable
import Hotswap.Text.Quoted

/-!
# Errors

Every cause for which an operation of the library fails. An error of the patch pipeline keeps the
error below it as its source. A computation that runs a transformation can also end in an abort,
which is no error: nothing below it is undone and nobody above it can handle it.
-/

namespace Hotswap

/-- Why a file could not be read or written. -/
inductive FileFault where
  /-- The path holds a NUL character. -/
  | nulInPath
  /-- A component of the path, or the path, is too long. -/
  | nameTooLong
  deriving DecidableEq, Repr

/-- Why the description of a patch is refused. -/
inductive InvalidPatch where
  | emptyTarget
  | noTransformation (target : String)
  | severalParameterLists (target : String) (count : Nat)
  deriving DecidableEq, Repr

/-- The wording of a refusal. -/
def InvalidPatch.message : InvalidPatch → String
  | emptyTarget => "empty target name"
  | noTransformation t => s!"patch of {t} has no transformation"
  | severalParameterLists t n => s!"patch of {t} describes its parameters {n} ways; use only one"

/-- Why an operation fails. -/
inductive Error where
  /-- An input is damaged. -/
  | malformed (cause : Malformed)
  /-- A read would go past the end of the input. -/
  | outOfBounds
  /-- There is no input. -/
  | empty
  /-- A file could not be read or written. -/
  | file (fault : FileFault)
  /-- A transformation or an agent gave up with a message. -/
  | custom (message : String)
  /-- An abort has left the record of a class unusable. -/
  | lock
  /-- A type has too many array dimensions. -/
  | recursionLimit (limit : Nat)
  | typeNotFound (name : String)
  | noSuchMethod (className name descriptor : String)
  | ambiguousMethod (className name params : String) (candidates : List String)
  | duplicateMember (className member : String)
  | frozen (className : String)
  | verification (className method : String) (cause : Unverifiable)
  | invalidPatch (cause : InvalidPatch)
  | targetNotFound (target : String)
  | methodNotFound (target method : String) (source : Error)
  | transform (target : String) (source : Error)
  | definition (target : String) (source : Error)
  | liveClassNotFound (target : String)
  | attach (source : Error)
  | redefinition (source : Error)
  | machine (error : MachineError)
  deriving DecidableEq, Repr

/-- The wording of an error, without its source. -/
def Error.message : Error → String
  | malformed cause => cause.message
  | outOfBounds => "Out of Bound read would have occurred!"
  | empty => "Provided input was empty"
  | file .nulInPath => "InvalidInput"
  | file .nameTooLong => "InvalidFilename"
  | custom m => m
  | lock => "Failed to lock target"
  | recursionLimit n => s!"Reach the maximum recursion level allowed - {n}"
  | typeNotFound n => s!"Type not found in pool - {n}"
  | noSuchMethod c n d => s!"No method {n}{d} in {c}"
  | ambiguousMethod c n p candidates =>
    s!"Method {n}{p} of {c} is not unique, candidates: " ++ Text.quoteList candidates
  | duplicateMember c m => s!"Duplicate member {m} in {c}"
  | frozen c => s!"{c} is frozen"
  | verification c m cause => s!"Verification failed for {c}.{m}: " ++ cause.message
  | invalidPatch cause => "Invalid patch - " ++ cause.message
  | targetNotFound t => s!"Cannot find {t} class"
  | methodNotFound t m _ => s!"Cannot resolve method {m} of {t}"
  | transform t _ => s!"Transformation of {t} failed"
  | definition t _ => s!"Cannot define patched {t}"
  | liveClassNotFound t => s!"{t} is not loaded in the running process"
  | attach _ => "Cannot attach to the running process"
  | redefinition _ => "Live redefinition rejected"
  | machine e => e.message

/-- The error that an error of the patch pipeline was raised for. -/
def Error.source? : Error → Option Error
  | methodNotFound _ _ source => some source
  | transform _ source => some source
  | definition _ source => some source
  | attach source => some source
  | redefinition source => some source
  | _ => none

/-- How a computation that runs transformations can end without a result. -/
inductive Failure where
  /-- It reports an error. -/
  | error (e : Error)
  /-- A transformation aborted. -/
  | aborted
  deriving DecidableEq, Repr

end Hotswap
