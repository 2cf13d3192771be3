import YangScript.Proofs.Violation
import YangScript.Schema.Module

/-!
# What it means that a document writes a module

A module can be expressed if entries are kept in the order of their names at every depth, marks
stand only on the kinds that have elements for them, an unknown kind has no known keyword, and no
text holds a quote, `<` or `&`. A tree writes a module if its attributes give the values and its
elements, in any order among siblings, write the parts. Attributes of other keys, and whatever
means nothing at its place, may be added anywhere.
-/

set_option autoImplicit false

namespace YangScript

open Xml Text

/-- Characters that need no care in a document. -/
def isPlain (c : Char) : Bool := !(isQuote c || c == '<' || c == '&')

def Plain (s : String) : Prop := ∀ c ∈ s.toList, isPlain c = true

instance (s : String) : Decidable (Plain s) :=
  decidable_of_iff (s.toList.all isPlain = true) List.all_eq_true

mutual

def LeafType.Expressible : LeafType → Prop
  | ⟨name, kind, values, bits, members, path⟩ =>
    Plain name ∧ Plain kind.keyword ∧
      (∀ keyword, kind = .unknown keyword → ∀ known ∈ BaseKind.builtins, known.keyword ≠ keyword) ∧
      (∀ value ∈ values, Plain value) ∧ (∀ bit ∈ bits, Plain bit) ∧
      LeafType.AllExpressible members ∧ ∀ p ∈ path, Plain p

def LeafType.AllExpressible : List LeafType → Prop
  | [] => True
  | t :: ts => LeafType.Expressible t ∧ LeafType.AllExpressible ts

end

mutual

def Entry.Expressible : Entry → Prop
  | ⟨name, kind, _, _, operation, repeated, key, description, leafType, children⟩ =>
    Plain name ∧ (operation = true → kind = .directory) ∧ (repeated = true → kind = .leaf) ∧
      (∀ k ∈ key, Plain k) ∧ (∀ d ∈ description, Plain d) ∧ (∀ t ∈ leafType, t.Expressible) ∧
      Keyed.Sorted Entry.name children ∧ Entry.AllExpressible children

def Entry.AllExpressible : List Entry → Prop
  | [] => True
  | e :: es => Entry.Expressible e ∧ Entry.AllExpressible es

end

structure Module.Expressible (m : Module) : Prop where
  name : Plain m.name
  uri : ∀ s ∈ m.uri, Plain s
  shortName : ∀ s ∈ m.shortName, Plain s
  parent : ∀ s ∈ m.parent, Plain s
  revisions : ∀ date ∈ m.revisions, Plain date
  description : ∀ s ∈ m.description, Plain s
  sorted : Keyed.Sorted Entry.name m.entries
  entries : Entry.AllExpressible m.entries

/-- The elements that stand for entries of the kind and with the marks of `e`. -/
def Entry.elements (e : Entry) : List String :=
  match e.kind, e.operation, e.repeated with
  | .directory, false, false => ["container", "list"]
  | .directory, true, false => ["rpc", "action"]
  | .leaf, false, false => ["leaf"]
  | .leaf, false, true => ["leaf-list"]
  | .anyXml, false, false => ["anyxml"]
  | .anyData, false, false => ["anydata"]
  | .choice, false, false => ["choice"]
  | .case, false, false => ["case"]
  | .notification, false, false => ["notification"]
  | _, _, _ => []

namespace Xml

/-- A flag that is off may be left out. -/
def TagText.WritesFlag (on : Bool) (key : String) (t : TagText) : Prop :=
  t.value? key = some (if on then "true" else "false") ∨ on = false ∧ t.value? key = none

structure TagText.WritesEntry (e : Entry) (t : TagText) : Prop where
  element : t.element ∈ e.elements
  name : t.value? "name" = some e.name
  mandatory : t.WritesFlag e.mandatory "mandatory"
  inputOnly : t.WritesFlag e.inputOnly "config-only"
  key : t.value? "key" = e.key
  description : t.value? "description" = e.description

/-- The name of a type may be left out if it is the keyword of its kind. -/
structure TagText.WritesType (y : LeafType) (t : TagText) : Prop where
  element : t.element = "type"
  kind : t.value? "kind" = some y.kind.keyword
  name : t.value? "name" = some y.name ∨ y.name = y.kind.keyword ∧ t.value? "name" = none
  path : t.value? "path" = y.path

structure TagText.WritesModule (m : Module) (t : TagText) : Prop where
  element : t.element = "module" ∨ t.element = "submodule" ∧ m.parent.isSome = true
  name : t.value? "name" = some m.name
  uri : t.value? "namespace" = m.uri
  shortName : t.value? "prefix" = m.shortName
  parent : t.value? "belongs-to" = m.parent
  description : t.value? "description" = m.description

mutual

def Node.WritesType (y : LeafType) : Node → Prop
  | .aside _ => False
  | .empty tag => tag.WritesType y ∧ y.values = [] ∧ y.bits = [] ∧ y.members = []
  | .element tag content _ => tag.WritesType y ∧ content.WritesTypeParts y.values y.bits y.members

/-- Values, bits and members keep their own order and may be mixed. -/
def Content.WritesTypeParts (values bits : List String) (members : List LeafType) : Content → Prop
  | .last _ => values = [] ∧ bits = [] ∧ members = []
  | .next _ node rest =>
    if node.isAmong ["type"] then
      ∃ y ys, members = y :: ys ∧ node.WritesType y ∧ rest.WritesTypeParts values bits ys
    else if node.isAmong ["enum"] then
      ∃ v vs, values = v :: vs ∧ node.value? "name" = some v ∧ rest.WritesTypeParts vs bits members
    else if node.isAmong ["bit"] then
      ∃ b bs, bits = b :: bs ∧ node.value? "name" = some b ∧ rest.WritesTypeParts values bs members
    else rest.WritesTypeParts values bits members

end

mutual

def Node.WritesEntry (e : Entry) : Node → Prop
  | .aside _ => False
  | .empty tag => tag.WritesEntry e ∧ e.leafType = none ∧ e.children = []
  | .element tag content _ =>
    tag.WritesEntry e ∧ ∃ es, es.Perm e.children ∧ content.WritesEntryParts es e.leafType

/-- The entries `es` in this order and the type, if there is one, anywhere among them. -/
def Content.WritesEntryParts (es : List Entry) (type : Option LeafType) : Content → Prop
  | .last _ => es = [] ∧ type = none
  | .next _ node rest =>
    if node.isAmong ["type"] then
      ∃ y, type = some y ∧ node.WritesType y ∧ rest.WritesEntryParts es none
    else if node.isAmong entryElements then
      ∃ e tail, es = e :: tail ∧ node.WritesEntry e ∧ rest.WritesEntryParts tail type
    else rest.WritesEntryParts es type

end

/-- A date is written as an attribute, or as the text of the element, with white space around. -/
def Node.WritesRevision (date : String) (n : Node) : Prop :=
  n.value? "date" = some date ∨
    n.value? "date" = none ∧ date ≠ "" ∧
      ∃ text, n.content = .last text ∧ trim (String.ofList text.chars) = date

/-- The entries `es` and the revisions, both in this order and mixed anyhow. -/
def Content.WritesModuleParts (es : List Entry) (dates : List String) : Content → Prop
  | .last _ => es = [] ∧ dates = []
  | .next _ node rest =>
    if node.isAmong ["revision"] then
      ∃ d ds, dates = d :: ds ∧ node.WritesRevision d ∧ rest.WritesModuleParts es ds
    else if node.isAmong entryElements then
      ∃ e tail, es = e :: tail ∧ node.WritesEntry e ∧ rest.WritesModuleParts tail dates
    else rest.WritesModuleParts es dates

def Node.WritesModule (m : Module) (n : Node) : Prop :=
  ∃ tag, n.tag? = some tag ∧ tag.WritesModule m ∧
    ∃ es, es.Perm m.entries ∧ n.content.WritesModuleParts es m.revisions

/-- A document writes the module that its first module element writes. -/
def Document.Writes (m : Module) (d : Document) : Prop :=
  ∃ n, d.content.firstModule? = some n ∧ n.WritesModule m

end Xml

end YangScript
