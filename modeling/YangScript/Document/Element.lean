import YangScript.Document.LoadError
import YangScript.Schema.Module
import YangScript.Xml.Tag

/-!
# What the tags of a module document say

Each element that the format knows takes some of its attributes and ignores the rest. Attributes
are judged in the order in which they stand, a fault of the tag included, and only when all of
them are read is a required one found missing.
-/

set_option autoImplicit false

namespace YangScript

open Xml

/-- Folds over the attributes of a tag up to the first refusal or the first fault of the tag. -/
def Xml.AttributeRun.collect {σ : Type} (run : AttributeRun)
    (take : σ → Attribute → Except LoadError σ) (start : σ) : Except LoadError σ := do
  let result ← run.read.foldlM take start
  match run.fault with
  | none => .ok result
  | some f => .error (.tag f)

def required (element name : String) : Option String → Except LoadError String
  | some value => .ok value
  | none => .error (.missingAttribute element name)

def flag (element name value : String) : Except LoadError Bool :=
  if value = "true" then .ok true
  else if value = "false" then .ok false
  else .error (.invalidAttribute element name value)

def isModuleTag (name : String) : Bool :=
  name == "module" || name == "submodule"

namespace Module

/-- Attributes of a module element; the name is kept apart, for it may turn out to be missing. -/
def takeAttribute (s : Option String × Module) (a : Attribute) :
    Except LoadError (Option String × Module) :=
  let (name, m) := s
  match a.key with
  | "name" => .ok (some a.value, m)
  | "namespace" => .ok (name, { m with uri := some a.value })
  | "prefix" => .ok (name, { m with shortName := some a.value })
  | "belongs-to" => .ok (name, { m with parent := some a.value })
  | "description" => .ok (name, { m with description := some a.value })
  | _ => .ok s

def ofTag (tag : Tag) : Except LoadError Module := do
  let (name, m) ← tag.attributes.collect takeAttribute (none, Module.ofName "")
  let name ← required tag.name "name" name
  if tag.name = "submodule" && m.parent.isNone then
    .error (.missingAttribute tag.name "belongs-to")
  else .ok { m with name }

end Module

namespace Entry

/-- The nameless entry that an element stands for, if it stands for one. -/
def ofElement? (name : String) : Option Entry :=
  match name with
  | "container" => some (ofKind "" .directory)
  | "list" => some (ofKind "" .directory)
  | "leaf" => some (ofKind "" .leaf)
  | "leaf-list" => some { ofKind "" .leaf with repeated := true }
  | "anyxml" => some (ofKind "" .anyXml)
  | "anydata" => some (ofKind "" .anyData)
  | "choice" => some (ofKind "" .choice)
  | "case" => some (ofKind "" .case)
  | "notification" => some (ofKind "" .notification)
  | "rpc" => some { ofKind "" .directory with operation := true }
  | "action" => some { ofKind "" .directory with operation := true }
  | _ => none

def takeAttribute (element : String) (s : Option String × Entry) (a : Attribute) :
    Except LoadError (Option String × Entry) :=
  let (name, e) := s
  match a.key with
  | "name" => .ok (some a.value, e)
  | "mandatory" => do
    let mandatory ← flag element a.key a.value
    .ok (name, { e with mandatory })
  | "config-only" => do
    let inputOnly ← flag element a.key a.value
    .ok (name, { e with inputOnly })
  | "key" => .ok (name, { e with key := some a.value })
  | "description" => .ok (name, { e with description := some a.value })
  | _ => .ok s

/-- The entry of a tag whose element stands for `bare`. -/
def ofTag (bare : Entry) (tag : Tag) : Except LoadError Entry := do
  let (name, e) ← tag.attributes.collect (takeAttribute tag.name) (none, bare)
  let name ← required tag.name "name" name
  .ok { e with name }

end Entry

namespace LeafType

structure TypeAttributes where
  kind : Option BaseKind
  name : Option String
  path : Option String

def takeAttribute (s : TypeAttributes) (a : Attribute) : Except LoadError TypeAttributes :=
  match a.key with
  | "kind" => .ok { s with kind := some (BaseKind.ofKeyword a.value) }
  | "name" => .ok { s with name := some a.value }
  | "path" => .ok { s with path := some a.value }
  | _ => .ok s

def ofTag (tag : Tag) : Except LoadError LeafType := do
  let s ← tag.attributes.collect takeAttribute ⟨none, none, none⟩
  match s.kind with
  | none => .error (.missingAttribute tag.name "kind")
  | some kind => .ok { ofKind kind with name := s.name.getD kind.keyword, path := s.path }

end LeafType

/-- The date of a revision element, if an attribute gives it. -/
def revisionDate (tag : Tag) : Except LoadError (Option String) :=
  tag.attributes.collect
    (fun date a => .ok (if a.key = "date" then some a.value else date)) none

/-- The name of an enumeration value or a bit. Attributes after it are not looked at. -/
def memberName (tag : Tag) : Except LoadError String :=
  match tag.attributes.read.find? (fun a => a.key = "name") with
  | some a => .ok a.value
  | none =>
    match tag.attributes.fault with
    | some f => .error (.tag f)
    | none => .error (.missingAttribute tag.name "name")

end YangScript
