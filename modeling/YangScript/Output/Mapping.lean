import YangScript.Output.Notice
import YangScript.Output.Render

/-!
# From schema entries to types

A leaf has the type of its scalar, or an array of it if it repeats; a directory becomes a record
of its children in the order of their names, keyed by the child that its key names. Whatever has
no precise type gets the stand-in: `unknown` when strict, `any` otherwise. The notices of a walk
are collected by functions of their own, which follow the same order.
-/

set_option autoImplicit false

namespace YangScript

def standInKeyword (strict : Bool) : Primitive := if strict then .unknown else .any

def standIn (strict : Bool) : ScriptType := .primitive (standInKeyword strict)

namespace LeafType

mutual

def scriptType (strict : Bool) : LeafType → ScriptType
  | ⟨_, kind, values, _, members, _⟩ =>
    match kind with
    | .int8 => .primitive .number
    | .int16 => .primitive .number
    | .int32 => .primitive .number
    | .uint8 => .primitive .number
    | .uint16 => .primitive .number
    | .uint32 => .primitive .number
    | .decimal64 => .primitive .number
    | .int64 => .primitive .bigint
    | .uint64 => .primitive .bigint
    | .string => .primitive .string
    | .binary => .primitive .string
    | .identityRef => .primitive .string
    | .instanceIdentifier => .primitive .string
    | .boolean => .primitive .boolean
    | .empty => .primitive .boolean
    | .bits => .array (.primitive .string)
    | .enumeration => .ofLiterals values
    | .union => .unionOf (alternatives strict members)
    | .leafRef => standIn strict
    | .none => .primitive .never
    | .unknown _ => standIn strict

/-- The rendered members of a union. -/
def alternatives (strict : Bool) : List LeafType → List String
  | [] => []
  | t :: ts => (scriptType strict t).render :: alternatives strict ts

end

theorem alternatives_eq_map (strict : Bool) (ts : List LeafType) :
    alternatives strict ts = (ts.map (scriptType strict)).map ScriptType.render := by
  induction ts with
  | nil => rfl
  | cons t ts ih => rw [alternatives, ih, List.map_cons, List.map_cons]

theorem mem_alternatives_iff {strict : Bool} {ts : List LeafType} {text : String} :
    text ∈ alternatives strict ts ↔ ∃ t ∈ ts, (t.scriptType strict).render = text := by
  rw [alternatives_eq_map, List.map_map, List.mem_map]
  rfl

mutual

def notices (strict : Bool) (owner : String) : LeafType → List Notice
  | ⟨_, kind, _, _, members, _⟩ =>
    match kind with
    | .union => noticesAll strict owner members
    | .unknown keyword => [.unhandledKind keyword owner (standInKeyword strict)]
    | _ => []

def noticesAll (strict : Bool) (owner : String) : List LeafType → List Notice
  | [] => []
  | t :: ts => notices strict owner t ++ noticesAll strict owner ts

end

end LeafType

/-- The type of a leaf's scalar, which may be missing. -/
def scalarType (strict : Bool) : Option LeafType → ScriptType
  | none => standIn strict
  | some t => t.scriptType strict

def scalarNotices (strict : Bool) (owner : String) : Option LeafType → List Notice
  | none => [.untypedLeaf owner (standInKeyword strict)]
  | some t => t.notices strict owner

/-- The type of the field that the key of a list names, and `string` if it names none. -/
def keyType (key : Option String) (fields : List (Field ScriptType)) : ScriptType :=
  match fields.find? (fun f => key == some f.name) with
  | some f => f.value
  | none => .string

namespace Entry

mutual

def scriptType (strict : Bool) : Entry → ScriptType
  | ⟨_, kind, _, _, _, repeated, key, _, leafType, children⟩ =>
    match kind with
    | .anyXml => .string
    | .anyData => standIn strict
    | .leaf =>
      if repeated then .array (scalarType strict leafType) else scalarType strict leafType
    | .directory =>
      let fields := scriptFields strict children
      .record (keyType key fields) fields
    | .choice => standIn strict
    | .case => standIn strict
    | .notification => standIn strict

def scriptFields (strict : Bool) : List Entry → List (Field ScriptType)
  | [] => []
  | e :: es => ⟨e.name, scriptType strict e, !e.mandatory⟩ :: scriptFields strict es

end

mutual

def notices (strict : Bool) : Entry → List Notice
  | ⟨name, kind, _, _, _, _, _, _, leafType, children⟩ =>
    match kind with
    | .anyXml => []
    | .anyData => []
    | .leaf => scalarNotices strict name leafType
    | .directory => noticesAll strict children
    | .choice => [.unhandledEntry .choice name (standInKeyword strict)]
    | .case => [.unhandledEntry .case name (standInKeyword strict)]
    | .notification => [.unhandledEntry .notification name (standInKeyword strict)]

def noticesAll (strict : Bool) : List Entry → List Notice
  | [] => []
  | e :: es => notices strict e ++ noticesAll strict es

end

end Entry

end YangScript
