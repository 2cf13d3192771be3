/-!
# Faults of a document

A document fails as markup (something begun is not finished, or begins with no known sign), as a
document (its parts do not fit together), or in the attributes of a tag. Attribute faults name
byte positions counted from just after the opening bracket of the tag.
-/

set_option autoImplicit false

namespace YangScript.Xml

inductive MarkupFault where
  | strayMarkup
  | openInstruction
  | openDeclaration
  | openComment
  | openDoctype
  | openCData
  | openTag
  | openValue (quote : Char)
  deriving DecidableEq, Repr

def MarkupFault.message : MarkupFault → String
  | .strayMarkup => "unknown or missed symbol in markup"
  | .openInstruction =>
    "processing instruction not closed: `?>` not found before end of input"
  | .openDeclaration => "XML declaration not closed: `?>` not found before end of input"
  | .openComment => "comment not closed: `-->` not found before end of input"
  | .openDoctype => "DOCTYPE not closed: `>` not found before end of input"
  | .openCData => "CDATA not closed: `]]>` not found before end of input"
  | .openTag => "tag not closed: `>` not found before end of input"
  | .openValue quote =>
    s!"attribute value not closed: `{quote}` not found before end of input"

inductive NestingFault where
  | namelessDoctype
  | strayEnd (name : String)
  | mismatchedEnd (expected found : String)
  | openReference
  deriving DecidableEq, Repr

def NestingFault.message : NestingFault → String
  | .namelessDoctype =>
    "`<!DOCTYPE>` declaration does not contain a name of a document type"
  | .strayEnd name => s!"close tag `</{name}>` does not match any open tag"
  | .mismatchedEnd expected found => s!"expected `</{expected}>`, but `</{found}>` was found"
  | .openReference =>
    "entity or character reference not closed: `;` not found before end of input"

inductive Fault where
  | markup (f : MarkupFault)
  | nesting (f : NestingFault)
  deriving DecidableEq, Repr

/-- The bare cause, without the class of the fault. -/
def Fault.cause : Fault → String
  | .markup f => f.message
  | .nesting f => f.message

def Fault.message : Fault → String
  | .markup f => s!"syntax error: {f.message}"
  | .nesting f => s!"ill-formed document: {f.message}"

inductive AttributeFault where
  | missingEquals (position : Nat)
  | missingValue (position : Nat)
  | unquotedValue (position : Nat)
  | openValue (position : Nat) (quote : Char)
  | repeated (position first : Nat)
  deriving DecidableEq, Repr

def AttributeFault.message : AttributeFault → String
  | .missingEquals p =>
    s!"position {p}: attribute key must be directly followed by `=` or space"
  | .missingValue p => s!"position {p}: `=` must be followed by an attribute value"
  | .unquotedValue p =>
    s!"position {p}: attribute value must be enclosed in `\x22` or `\x27`"
  | .openValue p quote =>
    s!"position {p}: missing closing quote `{quote}` in attribute value"
  | .repeated p first =>
    s!"position {p}: duplicated attribute, previous declaration at position {first}"

end YangScript.Xml
