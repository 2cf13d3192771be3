import YangScript.Keyed
import YangScript.Schema.LeafType
import YangScript.Text.Blank
import YangScript.Text.Segments

/-!
# Entries of a resolved schema tree

An entry is a node of the tree: a leaf, a directory (container, list, remote operation) or one of
the kinds that carry no scalar type. Children are kept in the order of their names, and adding a
child replaces the one that has its name.
-/

set_option autoImplicit false

namespace YangScript

inductive EntryKind where
  | leaf
  | directory
  | anyXml
  | anyData
  | choice
  | case
  | notification
  deriving DecidableEq, Repr

def EntryKind.keyword : EntryKind → String
  | .leaf => "leaf"
  | .directory => "directory"
  | .anyXml => "anyxml"
  | .anyData => "anydata"
  | .choice => "choice"
  | .case => "case"
  | .notification => "notification"

/-- Here `operation` marks an rpc or action, `inputOnly` an entry that only serves as its input,
and `repeated` a leaf that may occur many times. -/
structure Entry where
  name : String
  kind : EntryKind
  mandatory : Bool
  inputOnly : Bool
  operation : Bool
  repeated : Bool
  key : Option String
  description : Option String
  leafType : Option LeafType
  children : List Entry

namespace Entry

def ofKind (name : String) (kind : EntryKind) : Entry :=
  { name, kind, mandatory := false, inputOnly := false, operation := false, repeated := false,
    key := none, description := none, leafType := none, children := [] }

def leaf (name : String) (type : LeafType) : Entry :=
  { ofKind name .leaf with leafType := some type }

def leafList (name : String) (type : LeafType) : Entry :=
  { leaf name type with repeated := true }

def directory (name : String) : Entry := ofKind name .directory

def child? (e : Entry) (name : String) : Option Entry :=
  Keyed.find? Entry.name name e.children

def insert (e child : Entry) : Entry :=
  { e with children := Keyed.insert Entry.name child e.children }

/-- The children of `children`, added to `e` one after another. -/
def insertAll (e : Entry) (children : List Entry) : Entry :=
  children.foldl insert e

def isRepeatedLeaf (e : Entry) : Bool :=
  decide (e.kind = .leaf) && e.repeated

/-- The names in the key of a list, separated by white space. -/
def keyWords (e : Entry) : List String :=
  Text.words Text.isWhiteSpace (e.key.getD "")

theorem child?_insert_self (e child : Entry) :
    (e.insert child).child? child.name = some child :=
  Keyed.find?_insert_self Entry.name child e.children

theorem child?_insert_ne (e child : Entry) (name : String) (h : name ≠ child.name) :
    (e.insert child).child? name = e.child? name :=
  Keyed.find?_insert_ne Entry.name name child e.children h

end Entry

end YangScript
