import Hotswap.Session.Basic

/-!
# Descriptions

One-line descriptions of machines, classes, objects, patches and engines, for people who debug.
-/

namespace Hotswap

/-- A value of a described field that may be absent. -/
def describeOptional (s : Option String) : String :=
  match s with
  | some s => "Some(" ++ s ++ ")"
  | none => "None"

/-- A type name, its described fields, and whether fields are left out. -/
def describeFields (name : String) (fields : List (String × String)) (complete : Bool) : String :=
  let shown := fields.map fun (k, v) ↦ k ++ ": " ++ v
  let shown := if complete then shown else shown ++ [".."]
  name ++ " \x7b " ++ ", ".intercalate shown ++ " \x7d"

namespace Config

/-- The description of a configuration. -/
def description (c : Config) : String :=
  describeFields "VmConfig"
    [("limits", describeFields "ExecutionLimits"
        [("max_instructions", toString c.limits.maxInstructions),
          ("max_call_depth", toString c.limits.maxCallDepth)] true),
      ("allow_self_attach", toString c.allowSelfAttach),
      ("verify_on_define", toString c.verifyOnDefine)] true

end Config

namespace Machine

/-- The description of a machine. -/
def description (m : Machine) : String :=
  describeFields "Vm"
    [("config", m.config.description), ("loaded", toString m.system.size),
      ("defined", toString m.defined.length)] false

/-- The description of a class. -/
def describeClass (m : Machine) (id : ClassId) : String :=
  let c := m.cls id
  describeFields "ClassHandle"
    [("name", Text.quote c.name), ("loader", s!"LoaderId({c.loader})"),
      ("redefinitions", toString c.redefinitions)] true

/-- The description of an object. -/
def describeObject (m : Machine) (id : ObjectId) : String :=
  describeFields "Object" [("class", Text.quote (m.className (m.object id).cls))] false

/-- The description of a reflected type. -/
def describeReflected (m : Machine) : Reflected → String
  | .prim kind => "Primitive(" ++ kind.title ++ ")"
  | .cls id _ => "Class(" ++ m.describeClass id ++ ")"
  | .array element => "Array(" ++ m.describeReflected element ++ ")"

/-- The description of how parameters are described. -/
def describeParameters (m : Machine) : Parameters → String
  | .unspecified => "None"
  | .byName names => "ByName(" ++ Text.quoteList names ++ ")"
  | .byType types => "ByType(" ++ Text.bracketed (types.map m.describeReflected) ++ ")"
  | .byDescriptor d => "ByDescriptor(" ++ Text.quote d ++ ")"

/-- The description of a patch. -/
def describePatch {σ : Type} (m : Machine) (p : Patch σ) : String :=
  describeFields "PatchSpec"
    [("target", Text.quote p.target), ("method", describeOptional (p.method.map Text.quote)),
      ("params", m.describeParameters p.params)] false

/-- The description of a replacement. -/
def describeReplacement (m : Machine) (u : Replacement) : String :=
  describeFields "RedefinitionUnit"
    [("class", Text.quote (m.className u.cls)), ("bytecode_len", toString u.image.length)] true

end Machine

/-- The description of an engine over a pool and a bridge. -/
def describeEngine (p : Pool) (b : Bridge) : String :=
  describeFields "PatchEngine"
    [("pool_types", toString p.size), ("attached", toString b.isAttached)] false

end Hotswap
