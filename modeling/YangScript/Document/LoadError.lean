import YangScript.Xml.Error

/-!
# Why a document is refused

A document that cannot be read as markup fails with the fault of the markup. One that can be read
fails at the first element that breaks the format of a module, or because it ends before the
module does.
-/

set_option autoImplicit false

namespace YangScript

/-- The element in which a document ended too early. -/
inductive Unfinished where
  | module (name : String)
  | entry (tag name : String)
  | type (name : String)
  deriving DecidableEq, Repr

def Unfinished.message : Unfinished → String
  | .module name => s!"unexpected end of document in module '{name}'"
  | .entry tag name => s!"unexpected end of document in {tag} '{name}'"
  | .type name => s!"unexpected end of document in type '{name}'"

inductive LoadError where
  | markup (f : Xml.Fault)
  | tag (f : Xml.AttributeFault)
  | missingAttribute (element name : String)
  | invalidAttribute (element name value : String)
  | duplicateEntry (parent name : String)
  | duplicateType (entry : String)
  | noModule
  | unfinished (place : Unfinished)
  deriving DecidableEq, Repr

namespace LoadError

def message : LoadError → String
  | markup f => s!"XML parsing error: {f.message}"
  | tag f => s!"XML attribute error: {f.message}"
  | missingAttribute element name =>
    s!"missing required attribute '{name}' on element '{element}'"
  | invalidAttribute element name value =>
    s!"invalid value '{value}' for attribute '{name}' on element '{element}'"
  | duplicateEntry parent name => s!"duplicate entry definition: '{parent}/{name}'"
  | duplicateType entry => s!"duplicate type definition: '{entry}'"
  | noModule => "invalid schema structure: no module or submodule element found"
  | unfinished place => s!"invalid schema structure: {place.message}"

/-- The message followed by its causes, from the outermost to the bare one. -/
def chain : LoadError → String
  | markup f => s!"{(markup f).message}: {f.message}: {f.cause}"
  | tag f => s!"{(tag f).message}: {f.message}"
  | e => e.message

end LoadError

end YangScript
