import YangScript.Schema.Module

/-!
# Checks on a module

A module is valid if every key name of every directory, at whatever depth, is the name of a child.
Validation stops at the first offender; a node comes before its children and siblings stand in
the order of their names. Findings are milder: leaves for which the output will be vague. They
are collected in the same order.
-/

set_option autoImplicit false

namespace YangScript

/-- A key name of the list at `list` that names no child. -/
structure KeyFault where
  list : String
  key : String
  deriving DecidableEq, Repr

def KeyFault.message (f : KeyFault) : String :=
  s!"key '{f.key}' of list '{f.list}' does not name a child entry"

inductive Finding where
  | missingType (path : String)
  | emptyEnumeration (path : String)
  | emptyUnion (path : String)
  deriving DecidableEq, Repr

def Finding.message : Finding → String
  | .missingType path => s!"leaf '{path}' has no type"
  | .emptyEnumeration path => s!"enumeration on '{path}' declares no values"
  | .emptyUnion path => s!"union on '{path}' declares no member types"

namespace Entry

/-- The path of a node below `parent`. -/
def pathIn (parent : String) (e : Entry) : String :=
  s!"{parent}/{e.name}"

/-- The first key name of a directory that names no child. -/
def strayKey? (e : Entry) : Option String :=
  if e.kind = .directory then e.keyWords.find? (fun k => (e.child? k).isNone) else none

mutual

def validate (parent : String) : Entry → Except KeyFault Unit
  | e@⟨_, _, _, _, _, _, _, _, _, children⟩ =>
    match e.strayKey? with
    | some k => .error ⟨e.pathIn parent, k⟩
    | none => validateAll (e.pathIn parent) children

def validateAll (parent : String) : List Entry → Except KeyFault Unit
  | [] => .ok ()
  | e :: es =>
    match validate parent e with
    | .error f => .error f
    | .ok () => validateAll parent es

end

end Entry

namespace LeafType

mutual

def findings (path : String) : LeafType → List Finding
  | ⟨_, kind, values, _, members, _⟩ =>
    match kind with
    | .enumeration => if values.isEmpty then [.emptyEnumeration path] else []
    | .union => if members.isEmpty then [.emptyUnion path] else findingsAll path members
    | _ => []

def findingsAll (path : String) : List LeafType → List Finding
  | [] => []
  | t :: ts => findings path t ++ findingsAll path ts

end

end LeafType

namespace Entry

/-- What a node itself gives cause for, its children apart. -/
def ownFindings (path : String) (e : Entry) : List Finding :=
  if e.kind = .leaf then
    match e.leafType with
    | none => [.missingType path]
    | some t => t.findings path
  else []

mutual

def findings (parent : String) : Entry → List Finding
  | e@⟨_, _, _, _, _, _, _, _, _, children⟩ =>
    e.ownFindings (e.pathIn parent) ++ findingsAll (e.pathIn parent) children

def findingsAll (parent : String) : List Entry → List Finding
  | [] => []
  | e :: es => findings parent e ++ findingsAll parent es

end

end Entry

namespace Module

def validate (m : Module) : Except KeyFault Unit :=
  Entry.validateAll m.name m.entries

def findings (m : Module) : List Finding :=
  Entry.findingsAll m.name m.entries

end Module

end YangScript
