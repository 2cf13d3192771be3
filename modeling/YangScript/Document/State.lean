import YangScript.Document.Element
import YangScript.Text.Blank
import YangScript.Xml.Stream

/-!
# Reading a module from a stream of events

The reader is a machine. Before the first module element it waits; inside the module it stands at
a place (among the entries, in a type, in a revision), possibly within elements that mean nothing
there and are skipped; after the module's end it takes no notice of anything. What an element is
worth is handed to the element around it when it closes.
-/

set_option autoImplicit false

namespace YangScript

open Xml

/-- An entry element that is not closed yet, with the name of its tag. -/
structure OpenEntry where
  tag : String
  entry : Entry

/-- Where inside a module the reader stands. Open elements stand innermost first. -/
inductive Place where
  | entries (path : List OpenEntry)
  | type (inner : LeafType) (outer : List LeafType) (owner : OpenEntry) (path : List OpenEntry)
  | revision (date : Option String) (text : String)

inductive State where
  | waiting
  | inside (m : Module) (place : Place) (skipped : Nat)
  | complete (m : Module)

namespace State

/-- Adds an entry to the innermost open entry, or to the module if none is open. -/
def attachEntry (m : Module) (path : List OpenEntry) (e : Entry) : Except LoadError State :=
  match path with
  | [] =>
    if (m.child? e.name).isSome then .error (.duplicateEntry m.name e.name)
    else .ok (inside (m.insert e) (.entries []) 0)
  | o :: outer =>
    if (o.entry.child? e.name).isSome then .error (.duplicateEntry o.entry.name e.name)
    else .ok (inside m (.entries (⟨o.tag, o.entry.insert e⟩ :: outer)) 0)

/-- Gives an open entry its type. -/
def attachType (m : Module) (owner : OpenEntry) (path : List OpenEntry) (t : LeafType) :
    Except LoadError State :=
  if owner.entry.leafType.isSome then .error (.duplicateType owner.entry.name)
  else .ok (inside m (.entries (⟨owner.tag, { owner.entry with leafType := some t }⟩ :: path)) 0)

/-- Ends a revision: the attribute counts before the text, and text counts only if there is any. -/
def attachRevision (m : Module) (date : Option String) (text : String) : Except LoadError Module :=
  match date with
  | some d => .ok { m with revisions := m.revisions ++ [d] }
  | none =>
    if text = "" then .error (.missingAttribute "revision" "date")
    else .ok { m with revisions := m.revisions ++ [text] }

/-- An element that begins among the entries. Only the module itself holds revisions, and only an
entry holds a type. -/
def openAmongEntries (m : Module) (path : List OpenEntry) (tag : Tag) : Except LoadError State :=
  match path, tag.name with
  | [], "revision" => do
    let date ← revisionDate tag
    .ok (inside m (.revision date "") 0)
  | owner :: outer, "type" => do
    let t ← LeafType.ofTag tag
    .ok (inside m (.type t [] owner outer) 0)
  | _, name =>
    match Entry.ofElement? name with
    | none => .ok (inside m (.entries path) 1)
    | some bare => do
      let e ← Entry.ofTag bare tag
      .ok (inside m (.entries (⟨name, e⟩ :: path)) 0)

/-- An element without content among the entries. -/
def emptyAmongEntries (m : Module) (path : List OpenEntry) (tag : Tag) : Except LoadError State :=
  match path, tag.name with
  | [], "revision" => do
    let date ← revisionDate tag
    let m ← attachRevision m date ""
    .ok (inside m (.entries []) 0)
  | owner :: outer, "type" => do
    let t ← LeafType.ofTag tag
    attachType m owner outer t
  | _, name =>
    match Entry.ofElement? name with
    | none => .ok (inside m (.entries path) 0)
    | some bare => do
      let e ← Entry.ofTag bare tag
      attachEntry m path e

def closeAmongEntries (m : Module) : List OpenEntry → Except LoadError State
  | [] => .ok (complete m)
  | o :: outer => attachEntry m outer o.entry

/-- What an enumeration value or a bit adds to the type around it. -/
def attachMember (t : LeafType) (tag : Tag) : Except LoadError LeafType :=
  match tag.name with
  | "enum" => do
    let name ← memberName tag
    .ok { t with values := t.values ++ [name] }
  | "bit" => do
    let name ← memberName tag
    .ok { t with bits := t.bits ++ [name] }
  | _ => .ok t

def stepEntries (m : Module) (path : List OpenEntry) : Event → Except LoadError State
  | .start tag => openAmongEntries m path tag
  | .empty tag => emptyAmongEntries m path tag
  | .close => closeAmongEntries m path
  | .text _ => .ok (inside m (.entries path) 0)
  | .aside => .ok (inside m (.entries path) 0)

def stepType (m : Module) (t : LeafType) (outer : List LeafType) (owner : OpenEntry)
    (path : List OpenEntry) : Event → Except LoadError State
  | .start tag =>
    if tag.name = "type" then do
      let inner ← LeafType.ofTag tag
      .ok (inside m (.type inner (t :: outer) owner path) 0)
    else do
      let t ← attachMember t tag
      .ok (inside m (.type t outer owner path) 1)
  | .empty tag =>
    if tag.name = "type" then do
      let member ← LeafType.ofTag tag
      .ok (inside m (.type { t with members := t.members ++ [member] } outer owner path) 0)
    else do
      let t ← attachMember t tag
      .ok (inside m (.type t outer owner path) 0)
  | .close =>
    match outer with
    | [] => attachType m owner path t
    | around :: rest =>
      .ok (inside m (.type { around with members := around.members ++ [t] } rest owner path) 0)
  | .text _ => .ok (inside m (.type t outer owner path) 0)
  | .aside => .ok (inside m (.type t outer owner path) 0)

def stepRevision (m : Module) (date : Option String) (text : String) :
    Event → Except LoadError State
  | .start _ => .ok (inside m (.revision date text) 1)
  | .empty _ => .ok (inside m (.revision date text) 0)
  | .close => do
    let m ← attachRevision m date text
    .ok (inside m (.entries []) 0)
  | .text s => .ok (inside m (.revision date (text ++ Text.trim s)) 0)
  | .aside => .ok (inside m (.revision date text) 0)

def stepPlace (m : Module) : Place → Event → Except LoadError State
  | .entries path, e => stepEntries m path e
  | .type t outer owner path, e => stepType m t outer owner path e
  | .revision date text, e => stepRevision m date text e

/-- Counts the elements that are open below the place from which they are skipped. -/
def stepSkipped (m : Module) (place : Place) (depth : Nat) : Event → State
  | .start _ => inside m place (depth + 2)
  | .close => inside m place depth
  | _ => inside m place (depth + 1)

def stepWaiting : Event → Except LoadError State
  | .start tag =>
    if isModuleTag tag.name then do
      let m ← Module.ofTag tag
      .ok (inside m (.entries []) 0)
    else .ok waiting
  | .empty tag =>
    if isModuleTag tag.name then do
      let m ← Module.ofTag tag
      .ok (complete m)
    else .ok waiting
  | _ => .ok waiting

def step : State → Event → Except LoadError State
  | waiting, e => stepWaiting e
  | inside m place 0, e => stepPlace m place e
  | inside m place (depth + 1), e => .ok (stepSkipped m place depth e)
  | complete m, _ => .ok (complete m)

/-- What remains to be said when the document ends. A revision that the end cuts short is judged
like a closed one, and then the module around it is found unfinished. -/
def finish : State → Except LoadError Module
  | waiting => .error .noModule
  | complete m => .ok m
  | inside m (.entries []) _ => .error (.unfinished (.module m.name))
  | inside _ (.entries (o :: _)) _ => .error (.unfinished (.entry o.tag o.entry.name))
  | inside _ (.type t _ _ _) _ => .error (.unfinished (.type t.name))
  | inside m (.revision date text) _ => do
    let m ← attachRevision m date text
    .error (.unfinished (.module m.name))

end State

end YangScript
