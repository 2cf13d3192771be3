import YangScript.Output.ScriptType
import YangScript.Text.Casing

/-!
# Rendering types and declarations

Rendering never fails. Members of a union are written in the order of their code points, and a
union without members is `never`. A record whose key renders as `string` is an object literal; one
without fields is written with the key alone. A field name is quoted if it holds a hyphen, and
nothing in it is escaped.
-/

set_option autoImplicit false

namespace YangScript

/-- The two ways to write a top-level declaration. -/
inductive DeclarationForm where
  | interface
  | typeAlias
  deriving DecidableEq, Repr

/-- Backslashes and single quotes inside a literal are preceded by a backslash. -/
def escapeChar (c : Char) : List Char :=
  if c == '\x5c' || c == '\x27' then ['\x5c', c] else [c]

def literal (value : String) : String :=
  String.ofList ('\x27' :: value.toList.flatMap escapeChar ++ ['\x27'])

def ScriptType.ofLiterals (values : List String) : ScriptType :=
  .unionOf (values.map literal)

def renderUnion (members : List String) : String :=
  if members.isEmpty then Primitive.never.keyword
  else Text.join " | " (members.mergeSort (fun a b => decide (a ≤ b)))

/-- A block of lines between braces. -/
def block (lines : List String) : String :=
  "\x7b\n" ++ Text.join "\n" lines ++ "\n\x7d"

def renderRecord (key : String) (lines : List String) : String :=
  if lines.isEmpty then "Record<" ++ key ++ ", " ++ Primitive.any.keyword ++ ">"
  else if key = Primitive.string.keyword then block lines
  else "Record<" ++ key ++ ", " ++ block lines ++ ">"

def isHyphenated (name : String) : Bool := name.toList.contains '-'

def propertyKey (name : String) : String :=
  if isHyphenated name then "\x22" ++ name ++ "\x22" else name

def renderField (name : String) (optional : Bool) (value : String) : String :=
  propertyKey name ++ (if optional then "?: " else ": ") ++ value ++ ";"

def renderDeclaration (style : DeclarationForm) (name : String) (lines : List String) : String :=
  match style with
  | .interface => "export interface " ++ Text.pascalCase name ++ " " ++ block lines
  | .typeAlias => "export type " ++ Text.pascalCase name ++ " = " ++ block lines ++ ";"

namespace ScriptType

mutual

def render : ScriptType → String
  | .primitive p => p.keyword
  | .array element => "Array<" ++ element.render ++ ">"
  | .union members => renderUnion members
  | .record key fields => renderRecord key.render (renderFields fields)
  | .interface name fields => renderDeclaration .interface name (renderFields fields)

def renderFields : List (Field ScriptType) → List String
  | [] => []
  | ⟨name, value, optional⟩ :: rest =>
    renderField name optional value.render :: renderFields rest

end

/-- Whether the type reads as the plain keyword for text, whatever it is made of. -/
def readsAsString (t : ScriptType) : Bool := t.render == Primitive.string.keyword

end ScriptType

def Field.render (f : Field ScriptType) : String :=
  renderField f.name f.optional f.value.render

theorem ScriptType.renderFields_eq_map (fields : List (Field ScriptType)) :
    renderFields fields = fields.map Field.render := by
  induction fields with
  | nil => rfl
  | cons f rest ih =>
    cases f
    simp [renderFields, ih, Field.render]

def Interface.declaration (style : DeclarationForm) (i : Interface) : String :=
  renderDeclaration style i.name (ScriptType.renderFields i.fields)

theorem Interface.render_toType (i : Interface) : i.toType.render = i.declaration .interface := by
  simp [Interface.toType, ScriptType.render, Interface.declaration]

end YangScript
