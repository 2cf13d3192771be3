import YangScript.Output.Source
import YangScript.Proofs.FieldReading

/-!
# Declarations are read in one way only

From the lines between the braces of a declaration one gets back the names of its fields, which of
them are optional, and their types: records down to their fields, whatever is no record down to its
text. The names are made of letters, digits and a few marks; the values of enumerations may be any
texts, and none of them is taken for structure.
-/

set_option autoImplicit false

namespace YangScript

namespace Entry

mutual

/-- All names of the entry and below it are plain. -/
def hasPlainNames : Entry → Bool
  | ⟨name, _, _, _, _, _, _, _, _, children⟩ => isPlainName name && allPlainNames children

def allPlainNames : List Entry → Bool
  | [] => true
  | e :: es => hasPlainNames e && allPlainNames es

end

end Entry

namespace ScriptType

def isRecord : ScriptType → Bool
  | .record _ _ => true
  | _ => false

mutual

/-- A type whose rendering shows where its parts end. -/
def Readable : ScriptType → Prop
  | .primitive _ => True
  | .array element => Readable element
  | .union members => ∀ m ∈ members, IsScalarText m
  | .record key fields => Readable key ∧ ReadableFields fields
  | .interface _ _ => False

def ReadableFields : List (Field ScriptType) → Prop
  | [] => True
  | ⟨name, value, _⟩ :: rest =>
    isPlainName name = true ∧ Readable value ∧ ReadableFields rest

end

mutual

/-- Two types of one shape: records have keys of one text and fields of one shape, and whatever is
no record has one text. -/
inductive Corresponds : ScriptType → ScriptType → Prop
  | record {key key' : ScriptType} {fields fields' : List (Field ScriptType)}
      (keys : key.render = key'.render) (shape : CorrespondingFields fields fields') :
      Corresponds (.record key fields) (.record key' fields')
  | text {t t' : ScriptType} (left : t.isRecord = false) (right : t'.isRecord = false)
      (same : t.render = t'.render) : Corresponds t t'

inductive CorrespondingFields : List (Field ScriptType) → List (Field ScriptType) → Prop
  | nil : CorrespondingFields [] []
  | cons {f f' : Field ScriptType} {rest rest' : List (Field ScriptType)}
      (name : f.name = f'.name) (optional : f.optional = f'.optional)
      (value : Corresponds f.value f'.value) (shape : CorrespondingFields rest rest') :
      CorrespondingFields (f :: rest) (f' :: rest')

end

/-! ## What the rendering of a readable type is like -/

mutual

theorem balanced_render : (t : ScriptType) → t.Readable → Balanced t.render.toList
  | .primitive p, _ => (isScalarText_keyword p).balanced
  | .array element, h => (isScalarText_array (balanced_render element h)).balanced
  | .union _, h => (isScalarText_renderUnion h).balanced
  | .record key fields, h =>
    balanced_renderRecord (balanced_render key h.1) (passes_renderFields fields h.2)

theorem passes_renderFields : (fields : List (Field ScriptType)) → ReadableFields fields →
    ∀ l ∈ renderFields fields, ∀ depth, Passes (depth + 1) l.toList
  | [], _ => by simp [renderFields]
  | ⟨name, value, optional⟩ :: rest, h => by
    intro l hl depth
    rcases List.mem_cons.mp hl with rfl | hl
    · exact passes_renderField h.1 (balanced_render value h.2.1) optional depth
    · exact passes_renderFields rest h.2.2 l hl depth

end

theorem isScalarText_render {t : ScriptType} (h : t.Readable) (ht : t.isRecord = false) :
    IsScalarText t.render := by
  cases t with
  | primitive p => exact isScalarText_keyword p
  | array element => exact isScalarText_array (balanced_render element h)
  | union members => exact isScalarText_renderUnion h
  | record key fields => exact absurd ht (by simp [isRecord])
  | interface name fields => exact h.elim

theorem exists_of_isRecord {t : ScriptType} (h : t.isRecord = true) :
    ∃ key fields, t = .record key fields := by
  cases t with
  | record key fields => exact ⟨key, fields, rfl⟩
  | _ => exact absurd h (by simp [isRecord])

/-- The first character tells whether a type is a record. -/
theorem render_start {t : ScriptType} (h : t.Readable) :
    ∃ c, t.render.toList.head? = some c ∧ isRecordStart c = t.isRecord := by
  cases hr : t.isRecord with
  | false => exact (isScalarText_render h hr).start
  | true =>
    obtain ⟨key, fields, rfl⟩ := exists_of_isRecord hr
    exact renderRecord_start key.render (renderFields fields)

theorem isRecord_eq_of_render {t t' : ScriptType} (h : t.Readable) (h' : t'.Readable)
    (heq : t.render = t'.render) : t.isRecord = t'.isRecord := by
  obtain ⟨c, hc, hrec⟩ := render_start h
  obtain ⟨c', hc', hrec'⟩ := render_start h'
  rw [heq, hc', Option.some.injEq] at hc
  rw [← hrec, ← hrec', hc]

/-! ## From the text back to the shape -/

theorem join_renderFields_ne (f : Field ScriptType) (rest : List (Field ScriptType)) :
    Text.join "\n" (renderFields (f :: rest)) ≠ "" := by
  intro h
  cases f
  rw [renderFields, Text.join_cons] at h
  simp [renderField] at h

mutual

theorem corresponds_of_render : (t t' : ScriptType) → t.Readable → t'.Readable →
    t.render = t'.render → Corresponds t t'
  | .record key fields, t', h, h', heq => by
    -- Nothing but a record starts like one, so the other type is a record as well.
    obtain ⟨key', fields', rfl⟩ := exists_of_isRecord (isRecord_eq_of_render h h' heq).symm
    obtain ⟨hkeys, hlines⟩ :=
      renderRecord_inj (balanced_render key h.1) (balanced_render key' h'.1) heq
    exact .record hkeys (correspondingFields_of_join fields fields' h.2 h'.2 hlines)
  | .primitive _, _, h, h', heq => .text rfl (isRecord_eq_of_render h h' heq).symm heq
  | .array _, _, h, h', heq => .text rfl (isRecord_eq_of_render h h' heq).symm heq
  | .union _, _, h, h', heq => .text rfl (isRecord_eq_of_render h h' heq).symm heq
  | .interface _ _, _, h, _, _ => h.elim

theorem correspondingFields_of_join : (fields fields' : List (Field ScriptType)) →
    ReadableFields fields → ReadableFields fields' →
    Text.join "\n" (renderFields fields) = Text.join "\n" (renderFields fields') →
    CorrespondingFields fields fields'
  | [], [], _, _, _ => .nil
  | [], f' :: rest', _, _, heq => absurd heq.symm (join_renderFields_ne f' rest')
  | f :: rest, [], _, _, heq => absurd heq (join_renderFields_ne f rest)
  | ⟨name, value, optional⟩ :: rest, ⟨name', value', optional'⟩ :: rest', h, h', heq => by
    -- One field is cut off both texts; what is left joins the lines of the others.
    rw [renderFields, renderFields, Text.join_cons, Text.join_cons] at heq
    have hchars := congrArg String.toList heq
    rw [String.toList_append, String.toList_append] at hchars
    obtain ⟨hname, hoptional, hvalue, htail⟩ := renderField_eq_of_append h.1 h'.1
      (balanced_render value h.2.1) (balanced_render value' h'.2.1) hchars
    have hvalues := corresponds_of_render value value' h.2.1 h'.2.1 hvalue
    have hlines := Text.join_eq_of_tail_eq (by decide) (String.toList_inj.mp htail)
    exact .cons hname hoptional hvalues
      (correspondingFields_of_join rest rest' h.2.2 h'.2.2 hlines)

end

end ScriptType

/-! ## Entries become readable types -/

namespace LeafType

mutual

theorem readable_scriptType (strict : Bool) : (t : LeafType) →
    (t.scriptType strict).Readable ∧ (t.scriptType strict).isRecord = false
  | ⟨_, kind, values, _, members, _⟩ => by
    cases kind
    case enumeration =>
      refine ⟨fun m hm => ?_, rfl⟩
      rw [Text.mem_distinct, List.mem_map] at hm
      obtain ⟨value, -, rfl⟩ := hm
      exact isScalarText_literal value
    case union =>
      refine ⟨fun m hm => ?_, rfl⟩
      rw [Text.mem_distinct] at hm
      exact isScalarText_alternatives strict members m hm
    all_goals exact ⟨trivial, rfl⟩

theorem isScalarText_alternatives (strict : Bool) : (ts : List LeafType) →
    ∀ m ∈ alternatives strict ts, IsScalarText m
  | [] => by simp [alternatives]
  | t :: ts => by
    intro m hm
    rcases List.mem_cons.mp hm with rfl | hm
    · have ht := readable_scriptType strict t
      exact ScriptType.isScalarText_render ht.1 ht.2
    · exact isScalarText_alternatives strict ts m hm

end

end LeafType

theorem readable_scalarType (strict : Bool) (t : Option LeafType) :
    (scalarType strict t).Readable := by
  cases t with
  | none => trivial
  | some t => exact (t.readable_scriptType strict).1

/-- A key has the type of a field, or is text. -/
theorem readable_keyType (key : Option String) {fields : List (Field ScriptType)}
    (h : ScriptType.ReadableFields fields) : (keyType key fields).Readable := by
  have hall : ∀ f ∈ fields, f.value.Readable := by
    induction fields with
    | nil => simp
    | cons f rest ih =>
      intro g hg
      rcases List.mem_cons.mp hg with rfl | hg
      · exact h.2.1
      · exact ih h.2.2 g hg
  rw [keyType]
  split
  · rename_i f hf
    exact hall f (List.mem_of_find?_eq_some hf)
  · trivial

namespace Entry

mutual

theorem readable_scriptType (strict : Bool) : (e : Entry) → e.hasPlainNames = true →
    (e.scriptType strict).Readable
  | ⟨_, kind, _, _, _, repeated, key, _, leafType, children⟩, h => by
    rw [hasPlainNames, Bool.and_eq_true] at h
    cases kind
    case leaf =>
      cases repeated <;> exact readable_scalarType strict leafType
    case directory =>
      have hfields := readableFields_scriptFields strict children h.2
      exact ⟨readable_keyType key hfields, hfields⟩
    all_goals trivial

theorem readableFields_scriptFields (strict : Bool) : (es : List Entry) →
    allPlainNames es = true → ScriptType.ReadableFields (scriptFields strict es)
  | [], _ => trivial
  | e :: es, h => by
    rw [allPlainNames, Bool.and_eq_true] at h
    refine ⟨?_, readable_scriptType strict e h.1, readableFields_scriptFields strict es h.2⟩
    cases e
    rw [hasPlainNames, Bool.and_eq_true] at h
    exact h.1.1

end

theorem allPlainNames_filter (keep : Entry → Bool) {es : List Entry}
    (h : allPlainNames es = true) : allPlainNames (es.filter keep) = true := by
  induction es with
  | nil => rfl
  | cons e es ih =>
    rw [allPlainNames, Bool.and_eq_true] at h
    rw [List.filter_cons]
    split
    · rw [allPlainNames, h.1, ih h.2]
      rfl
    · exact ih h.2

end Entry

namespace DeclarationForm

/-- What a declaration has before its lines. -/
def opening : DeclarationForm → String → String
  | .interface, name => "export interface " ++ Text.pascalCase name ++ " " ++ "\x7b\n"
  | .typeAlias, name => "export type " ++ Text.pascalCase name ++ " = " ++ "\x7b\n"

/-- What a declaration has behind its lines. -/
def closing : DeclarationForm → String
  | .interface => "\n\x7d"
  | .typeAlias => "\n\x7d" ++ ";"

end DeclarationForm

theorem append_block (front : String) (lines : List String) :
    front ++ block lines = front ++ "\x7b\n" ++ Text.join "\n" lines ++ "\n\x7d" := by
  rw [block, String.append_assoc, String.append_assoc, String.append_assoc]

theorem Interface.declaration_eq (style : DeclarationForm) (i : Interface) :
    i.declaration style = style.opening i.name ++
      Text.join "\n" (ScriptType.renderFields i.fields) ++ style.closing := by
  cases style with
  | interface => exact append_block ("export interface " ++ Text.pascalCase i.name ++ " ") _
  | typeAlias =>
    have hblock := append_block ("export type " ++ Text.pascalCase i.name ++ " = ")
      (ScriptType.renderFields i.fields)
    have hend := congrArg (fun s => s ++ ";") hblock
    exact hend.trans (String.append_assoc ..)

/-- What stands in a declaration between its braces. -/
theorem Interface.body_eq {style : DeclarationForm} {i : Interface} {body : String}
    (h : i.declaration style = style.opening i.name ++ body ++ style.closing) :
    body = Text.join "\n" (ScriptType.renderFields i.fields) := by
  rw [declaration_eq, String.append_left_inj, String.append_right_inj] at h
  exact h.symm

theorem Module.readable_interface {strict : Bool} {m : Module} {i : Interface}
    (hm : Entry.allPlainNames m.entries = true) (h : (m.interface strict).value = .ok i) :
    ScriptType.ReadableFields i.fields := by
  rw [eq_interfaceOf h]
  exact Entry.readableFields_scriptFields strict _ (Entry.allPlainNames_filter _ hm)

/-- Two modules that are declared with the same lines have the same fields, and each of them has
types that correspond. -/
theorem declarations_read_in_one_way {m m' : Module} {strict strict' : Bool} {i j : Interface}
    {style : DeclarationForm} {body : String}
    (hm : Entry.allPlainNames m.entries = true) (hm' : Entry.allPlainNames m'.entries = true)
    (hi : (m.interface strict).value = .ok i) (hj : (m'.interface strict').value = .ok j)
    (hleft : i.declaration style = style.opening i.name ++ body ++ style.closing)
    (hright : j.declaration style = style.opening j.name ++ body ++ style.closing) :
    ScriptType.CorrespondingFields i.fields j.fields := by
  have hlines := (Interface.body_eq hleft).symm.trans (Interface.body_eq hright)
  exact ScriptType.correspondingFields_of_join i.fields j.fields
    (Module.readable_interface hm hi) (Module.readable_interface hm' hj) hlines

/-- A list whose key has the given type, next to an enumeration whose one value looks like the end
of the list and another field. -/
def listKeyedBy (type : LeafType) : Module :=
  let misleading := { LeafType.ofKind .enumeration with values := ["\x27;\n\x7d;\nb: any"] }
  { Module.ofName "m" with
    entries :=
      [{ Entry.directory "list.a" with
         key := some "k-1"
         children := [Entry.leaf "e" misleading, Entry.leaf "k-1" type] }] }

theorem renderFields_listKeyedBy (t t' : LeafType) (strict strict' : Bool)
    (h : (t.scriptType strict).render = (t'.scriptType strict').render) :
    ScriptType.renderFields ((listKeyedBy t).interfaceOf strict).fields =
      ScriptType.renderFields ((listKeyedBy t').interfaceOf strict').fields :=
  congrArg (fun key => [renderField "list.a" true (renderRecord key
    [renderField "e" true (renderUnion [literal "\x27;\n\x7d;\nb: any"]),
      renderField "k-1" true key])]) h

/-- A union of texts and a plain text are not told apart, and need not be. -/
theorem declarations_read_in_one_way_listKeyedBy :
    let text := LeafType.ofKind .string
    let m := listKeyedBy { LeafType.ofKind .union with members := [text] }
    let m' := listKeyedBy text
    ScriptType.CorrespondingFields (m.interfaceOf true).fields (m'.interfaceOf false).fields := by
  intro text m m'
  have hplain : Entry.allPlainNames m.entries = true := by decide
  have hplain' : Entry.allPlainNames m'.entries = true := by decide
  have hleft := (m.interfaceOf true).declaration_eq .interface
  have hright := (m'.interfaceOf false).declaration_eq .interface
  have hunion : renderUnion [Primitive.string.keyword] = Primitive.string.keyword := by
    simp [renderUnion, Text.join]
  have hlines := renderFields_listKeyedBy text
    { LeafType.ofKind .union with members := [text] } false true hunion.symm
  rw [hlines] at hright
  exact declarations_read_in_one_way hplain hplain' rfl rfl hleft hright

end YangScript
