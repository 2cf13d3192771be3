/-!
# Base kinds of leaf types

Every leaf type comes down to one of twenty built-in kinds. A keyword that names none of them is
kept as it stands.
-/

set_option autoImplicit false

namespace YangScript

inductive BaseKind where
  | int8 | int16 | int32 | int64
  | uint8 | uint16 | uint32 | uint64
  | decimal64
  | string
  | binary
  | identityRef
  | instanceIdentifier
  | boolean
  | empty
  | bits
  | enumeration
  | union
  | leafRef
  | none
  | unknown (keyword : String)
  deriving DecidableEq, Repr

namespace BaseKind

def keyword : BaseKind → String
  | int8 => "int8"
  | int16 => "int16"
  | int32 => "int32"
  | int64 => "int64"
  | uint8 => "uint8"
  | uint16 => "uint16"
  | uint32 => "uint32"
  | uint64 => "uint64"
  | decimal64 => "decimal64"
  | string => "string"
  | binary => "binary"
  | identityRef => "identityref"
  | instanceIdentifier => "instance-identifier"
  | boolean => "boolean"
  | empty => "empty"
  | bits => "bits"
  | enumeration => "enumeration"
  | union => "union"
  | leafRef => "leafref"
  | none => "none"
  | unknown k => k

def builtins : List BaseKind :=
  [int8, int16, int32, int64, uint8, uint16, uint32, uint64, decimal64, string, binary,
   identityRef, instanceIdentifier, boolean, empty, bits, enumeration, union, leafRef, none]

def ofKeyword (k : String) : BaseKind :=
  (builtins.find? (fun kind => kind.keyword == k)).getD (unknown k)

def isKnown : BaseKind → Bool
  | unknown _ => false
  | _ => true

theorem keyword_ofKeyword (k : String) : (ofKeyword k).keyword = k := by
  rw [ofKeyword]
  cases h : builtins.find? (fun kind => kind.keyword == k) with
  | none => rfl
  | some kind => simpa using List.find?_some h

theorem ofKeyword_keyword (kind : BaseKind) (h : kind ∈ builtins) :
    ofKeyword kind.keyword = kind := by
  simp only [builtins, List.mem_cons, List.not_mem_nil, or_false] at h
  rcases h with rfl | rfl | rfl | rfl | rfl | rfl | rfl | rfl | rfl | rfl | rfl | rfl | rfl | rfl |
    rfl | rfl | rfl | rfl | rfl | rfl <;> decide

end BaseKind

end YangScript
