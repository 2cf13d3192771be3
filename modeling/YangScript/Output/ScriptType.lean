import YangScript.Text.Join

/-!
# Types of the generated declarations

The type expressions that a declaration is made of: the scalar keywords, arrays, unions of texts
that are already rendered, records with a key type and fields, and named interfaces. A union drops
repeated members when it is made and keeps the order of the rest.
-/

set_option autoImplicit false

namespace YangScript

inductive Primitive where
  | string
  | number
  | bigint
  | boolean
  | any
  | unknown
  | never
  deriving DecidableEq, Repr

def Primitive.keyword : Primitive → String
  | .string => "string"
  | .number => "number"
  | .bigint => "bigint"
  | .boolean => "boolean"
  | .any => "any"
  | .unknown => "unknown"
  | .never => "never"

/-- A named member; an optional one may be absent. -/
structure Field (τ : Type) where
  name : String
  value : τ
  optional : Bool

inductive ScriptType where
  | primitive (p : Primitive)
  | array (element : ScriptType)
  | union (members : List String)
  | record (key : ScriptType) (fields : List (Field ScriptType))
  | interface (name : String) (fields : List (Field ScriptType))

namespace ScriptType

def string : ScriptType := .primitive .string

def unionOf (members : List String) : ScriptType :=
  .union (Text.distinct members)

mutual

def decEq : (a b : ScriptType) → Decidable (a = b)
  | .primitive p, .primitive q =>
    if h : p = q then isTrue (by rw [h]) else isFalse (by simp [h])
  | .array s, .array t =>
    match decEq s t with
    | isTrue h => isTrue (by rw [h])
    | isFalse h => isFalse (by simp [h])
  | .union ms, .union ns =>
    if h : ms = ns then isTrue (by rw [h]) else isFalse (by simp [h])
  | .record k fs, .record l gs =>
    match decEq k l, decEqFields fs gs with
    | isTrue hk, isTrue hf => isTrue (by rw [hk, hf])
    | isFalse hk, _ => isFalse (by simp [hk])
    | _, isFalse hf => isFalse (by simp [hf])
  | .interface n fs, .interface m gs =>
    if hn : n = m then
      match decEqFields fs gs with
      | isTrue hf => isTrue (by rw [hn, hf])
      | isFalse hf => isFalse (by simp [hf])
    else isFalse (by simp [hn])
  | .primitive _, .array _ => isFalse (by simp)
  | .primitive _, .union _ => isFalse (by simp)
  | .primitive _, .record _ _ => isFalse (by simp)
  | .primitive _, .interface _ _ => isFalse (by simp)
  | .array _, .primitive _ => isFalse (by simp)
  | .array _, .union _ => isFalse (by simp)
  | .array _, .record _ _ => isFalse (by simp)
  | .array _, .interface _ _ => isFalse (by simp)
  | .union _, .primitive _ => isFalse (by simp)
  | .union _, .array _ => isFalse (by simp)
  | .union _, .record _ _ => isFalse (by simp)
  | .union _, .interface _ _ => isFalse (by simp)
  | .record _ _, .primitive _ => isFalse (by simp)
  | .record _ _, .array _ => isFalse (by simp)
  | .record _ _, .union _ => isFalse (by simp)
  | .record _ _, .interface _ _ => isFalse (by simp)
  | .interface _ _, .primitive _ => isFalse (by simp)
  | .interface _ _, .array _ => isFalse (by simp)
  | .interface _ _, .union _ => isFalse (by simp)
  | .interface _ _, .record _ _ => isFalse (by simp)

def decEqFields : (fs gs : List (Field ScriptType)) → Decidable (fs = gs)
  | [], [] => isTrue rfl
  | [], _ :: _ => isFalse (by simp)
  | _ :: _, [] => isFalse (by simp)
  | ⟨n, s, o⟩ :: fs, ⟨m, t, p⟩ :: gs =>
    if hflat : n = m ∧ o = p then
      match decEq s t, decEqFields fs gs with
      | isTrue hs, isTrue hf => isTrue (by simp [hflat, hs, hf])
      | isFalse hs, _ => isFalse (by simp [hs])
      | _, isFalse hf => isFalse (by simp [hf])
    else isFalse (by
      simp only [List.cons.injEq, Field.mk.injEq]
      exact fun h => hflat ⟨h.1.1, h.1.2.2⟩)

end

instance : DecidableEq ScriptType := decEq

end ScriptType

/-- A record under construction: at first it is keyed by text and has no fields. -/
structure Record where
  key : ScriptType
  fields : List (Field ScriptType)

namespace Record

def empty : Record := ⟨.string, []⟩

def withKey (r : Record) (key : ScriptType) : Record := { r with key }

def push (r : Record) (f : Field ScriptType) : Record := { r with fields := r.fields ++ [f] }

def toType (r : Record) : ScriptType := .record r.key r.fields

end Record

/-- A named declaration. The name is that of the schema. -/
structure Interface where
  name : String
  fields : List (Field ScriptType)

namespace Interface

def empty (name : String) : Interface := ⟨name, []⟩

def push (i : Interface) (f : Field ScriptType) : Interface :=
  { i with fields := i.fields ++ [f] }

def isEmpty (i : Interface) : Bool := i.fields.isEmpty

def toType (i : Interface) : ScriptType := .interface i.name i.fields

end Interface

end YangScript
