import YangScript.Document.LoadError
import YangScript.Proofs.Markup

/-!
# Where a document breaks the format of a module

A violation is met at a start tag or at an end tag. The functions below collect every violation of
an element, in the order in which the tags stand in the document, and go on behind the first.
An empty element ends where it starts. Elements that mean nothing at their place are left out with
all that is in them. Each violation is stated of the tree alone: a name repeats that of an earlier
sibling, a type stands behind another, a text holds something besides white space.
-/

set_option autoImplicit false

namespace YangScript.Xml

open YangScript.Text

def Attribute.valueFor (a : Attribute) (key : String) : Option String :=
  if a.key = key then some a.value else none

/-- The value that some attributes give to a key. The keys of one tag are distinct. -/
def valueIn (key : String) : List Attribute → Option String
  | [] => none
  | a :: as => (valueIn key as).or (a.valueFor key)

namespace TagText

def element (t : TagText) : String := String.ofList t.name.chars

def written (t : TagText) : List Attribute := t.attributes.map AttributeText.attribute

def value? (t : TagText) (key : String) : Option String := valueIn key t.written

/-- A required attribute that is not there. -/
def missing (t : TagText) (key : String) : List LoadError :=
  if (t.value? key).isNone then [.missingAttribute t.element key] else []

def moduleViolations (t : TagText) : List LoadError :=
  t.missing "name" ++ if t.element = "submodule" then t.missing "belongs-to" else []

end TagText

/-- A flag has one of two values. -/
def flagViolation? (element : String) (a : Attribute) : Option LoadError :=
  if (a.key = "mandatory" ∨ a.key = "config-only") ∧ a.value ≠ "true" ∧ a.value ≠ "false" then
    some (.invalidAttribute element a.key a.value)
  else none

/-- The flags of an entry come before its name, wherever they stand in the tag. -/
def TagText.entryViolations (t : TagText) : List LoadError :=
  t.written.filterMap (flagViolation? t.element) ++ t.missing "name"

def moduleElements : List String := ["module", "submodule"]

def entryElements : List String :=
  ["container", "list", "leaf", "leaf-list", "anyxml", "anydata", "choice", "case", "notification",
    "rpc", "action"]

namespace Node

def tag? : Node → Option TagText
  | .aside _ => none
  | .empty tag => some tag
  | .element tag _ _ => some tag

/-- What stands in an element. In an empty one there is nothing. -/
def content : Node → Content
  | .element _ content _ => content
  | _ => .last CharData.none

/-- Whether a node is an element with one of some names. -/
def isAmong (names : List String) (n : Node) : Bool :=
  n.tag?.any (fun t => names.contains t.element)

def value? (n : Node) (key : String) : Option String := n.tag?.bind (fun t => t.value? key)

theorem isAmong_iff (names : List String) (n : Node) :
    n.isAmong names = true ↔ ∃ tag, n.tag? = some tag ∧ tag.element ∈ names := by
  cases h : n.tag? <;> simp [isAmong, h]

theorem isAmong_of_tag? {n : Node} {tag : TagText} (h : n.tag? = some tag) (names : List String) :
    n.isAmong names = names.contains tag.element := by
  rw [isAmong, h]
  rfl

theorem value?_of_tag? {n : Node} {tag : TagText} (h : n.tag? = some tag) (key : String) :
    n.value? key = tag.value? key := by
  rw [value?, h]
  rfl

end Node

mutual

theorem Node.induction_content {P : Content → Prop} (last : ∀ text, P (.last text))
    (next : ∀ text node rest, P (Node.content node) → P rest → P (.next text node rest))
    (n : Node) : P n.content := by
  cases n with
  | aside a => exact last _
  | empty tag => exact last _
  | element tag content closing => exact Content.induction last next content

/-- What holds of content that is only text, and of content that goes on with a node if it holds of
the content of that node and of the rest, holds of all content. -/
@[elab_as_elim]
theorem Content.induction {P : Content → Prop} (last : ∀ text, P (.last text))
    (next : ∀ text node rest, P (Node.content node) → P rest → P (.next text node rest))
    (c : Content) : P c := by
  cases c with
  | last text => exact last text
  | next text node rest =>
    exact next text node rest (Node.induction_content last next node)
      (Content.induction last next rest)

end

/-- Whether there is text besides white space directly among the content. -/
def Content.hasPlainText : Content → Bool
  | .last text => text.chars.any (fun c => !isWhiteSpace c)
  | .next text _ rest => text.chars.any (fun c => !isWhiteSpace c) || rest.hasPlainText

mutual

/-- The first module element in the order of the start tags, at whatever depth. -/
def Node.firstModule? : Node → Option Node
  | .aside _ => none
  | .empty tag => if tag.element ∈ moduleElements then some (.empty tag) else none
  | .element tag content closing =>
    if tag.element ∈ moduleElements then some (.element tag content closing)
    else content.firstModule?

def Content.firstModule? : Content → Option Node
  | .last _ => none
  | .next _ node rest => node.firstModule?.or rest.firstModule?

end

/-- What an element directly inside a type lacks at its start tag. -/
def Node.memberViolations (n : Node) : List LoadError :=
  if n.isAmong ["enum", "bit"] then (n.tag?.map (fun t => t.missing "name")).getD [] else []

mutual

/-- The violations of a type element. -/
def Node.typeViolations : Node → List LoadError
  | .aside _ => []
  | .empty tag => tag.missing "kind"
  | .element tag content _ => tag.missing "kind" ++ content.typeViolations

def Content.typeViolations : Content → List LoadError
  | .last _ => []
  | .next _ node rest =>
    (if node.isAmong ["type"] then node.typeViolations else node.memberViolations) ++
      rest.typeViolations

end

/-- What is met at the end tag of an entry: an earlier sibling has its name. -/
def Node.nameViolations (owner : String) (earlier : List String) (n : Node) : List LoadError :=
  match n.value? "name" with
  | none => []
  | some name => if name ∈ earlier then [.duplicateEntry owner name] else []

mutual

/-- The violations of an entry element but the one at its end tag. -/
def Node.entryViolations : Node → List LoadError
  | .aside _ => []
  | .empty tag => tag.entryViolations
  | .element tag content _ =>
    tag.entryViolations ++ content.entryViolations ((tag.value? "name").getD "") [] false

/-- The violations in the content of the entry `owner`, behind siblings with the names `earlier`
and, if it is `typed`, behind a type. -/
def Content.entryViolations (owner : String) (earlier : List String) (typed : Bool) :
    Content → List LoadError
  | .last _ => []
  | .next _ node rest =>
    if node.isAmong ["type"] then
      node.typeViolations ++ (if typed then [.duplicateType owner] else []) ++
        rest.entryViolations owner earlier true
    else if node.isAmong entryElements then
      node.entryViolations ++ node.nameViolations owner earlier ++
        rest.entryViolations owner ((node.value? "name").toList ++ earlier) typed
    else rest.entryViolations owner earlier typed

end

/-- What is met at the end tag of a revision: it has no date. -/
def Node.revisionViolations (n : Node) : List LoadError :=
  if (n.value? "date").isNone && !n.content.hasPlainText then
    [.missingAttribute "revision" "date"]
  else []

/-- The violations in the content of the module `owner`. -/
def Content.moduleViolations (owner : String) (earlier : List String) : Content → List LoadError
  | .last _ => []
  | .next _ node rest =>
    if node.isAmong ["revision"] then
      node.revisionViolations ++ rest.moduleViolations owner earlier
    else if node.isAmong entryElements then
      node.entryViolations ++ node.nameViolations owner earlier ++
        rest.moduleViolations owner ((node.value? "name").toList ++ earlier)
    else rest.moduleViolations owner earlier

/-- The violations of a module element. -/
def Node.moduleViolations : Node → List LoadError
  | .aside _ => []
  | .empty tag => tag.moduleViolations
  | .element tag content _ =>
    tag.moduleViolations ++ content.moduleViolations ((tag.value? "name").getD "") []

namespace Node

variable {n : Node} {tag : TagText}

theorem typeViolations_eq (h : n.tag? = some tag) :
    n.typeViolations = tag.missing "kind" ++ n.content.typeViolations := by
  cases n <;> simp_all [tag?, content, typeViolations, Content.typeViolations]

theorem entryViolations_eq (h : n.tag? = some tag) :
    n.entryViolations =
      tag.entryViolations ++ n.content.entryViolations ((tag.value? "name").getD "") [] false := by
  cases n <;> simp_all [tag?, content, entryViolations, Content.entryViolations]

theorem moduleViolations_eq (h : n.tag? = some tag) :
    n.moduleViolations =
      tag.moduleViolations ++ n.content.moduleViolations ((tag.value? "name").getD "") [] := by
  cases n <;> simp_all [tag?, content, moduleViolations, Content.moduleViolations]

theorem firstModule?_of_aside (h : n.tag? = none) : n.firstModule? = none := by
  cases n <;> simp_all [tag?, firstModule?]

theorem firstModule?_of_mem (h : n.tag? = some tag) (hm : tag.element ∈ moduleElements) :
    n.firstModule? = some n := by
  cases n <;> simp_all [tag?, firstModule?]

theorem firstModule?_of_not_mem (h : n.tag? = some tag) (hm : tag.element ∉ moduleElements) :
    n.firstModule? = n.content.firstModule? := by
  cases n <;> simp_all [tag?, firstModule?, content, Content.firstModule?]

end Node

end YangScript.Xml
