import YangScript.Proofs.Identifiers
import YangScript.Proofs.UntypedLeaves

/-!
# The keys of the fields

Every field of a module's interface, at whatever depth, bears the name of an entry. Its key is that
name, between quotes if there is a hyphen in it. A name of the schema with a dot in it and no hyphen
is therefore written bare, although it is no identifier; all others are written as they must be.
-/

set_option autoImplicit false

namespace YangScript

/-! ## Keys that stand for a name -/

/-- A character that stands for itself between double quotes. -/
def isQuotable (c : Char) : Bool := !(c == '\x22' || c == '\x5c' || c == '\n' || c == '\r')

/-- Whether `key` names the property `name`: it is the name and an identifier, or the name between
double quotes. -/
def IsKeyOf (name key : String) : Prop :=
  (key = name ∧ isIdentifier name = true) ∨
    (key = "\x22" ++ name ++ "\x22" ∧ ∀ c ∈ name.toList, isQuotable c = true)

theorem isQuotable_of_isFieldChar {c : Char} (h : isFieldChar c = true) : isQuotable c = true := by
  rw [isQuotable, Bool.not_eq_true']
  refine Bool.eq_false_iff.mpr fun hc => ?_
  simp only [Bool.or_eq_true, beq_iff_eq] at hc
  rcases hc with ((rfl | rfl) | rfl) | rfl <;> exact absurd h (by decide)

theorem isKeyOf_self_iff (name : String) : IsKeyOf name name ↔ isIdentifier name = true := by
  constructor
  · rintro (⟨-, h⟩ | ⟨hquoted, -⟩)
    · exact h
    · have hlength := congrArg String.length hquoted
      have hquote : "\x22".length = 1 := rfl
      rw [String.length_append, String.length_append, hquote] at hlength
      omega
  · intro h
    exact Or.inl ⟨rfl, h⟩

theorem isHyphenated_iff (name : String) : isHyphenated name = true ↔ '-' ∈ name.toList := by
  rw [isHyphenated, List.contains_iff_mem]

/-- A name of the schema is written as a key that names it unless it has a dot and no hyphen. -/
theorem isKeyOf_propertyKey_iff {name : String} (h : isSchemaName name = true) :
    IsKeyOf name (propertyKey name) ↔ ('.' ∈ name.toList → '-' ∈ name.toList) := by
  by_cases hhyphen : '-' ∈ name.toList
  · have hquotable : ∀ c ∈ name.toList, isQuotable c = true := fun c hc =>
      isQuotable_of_isFieldChar (isFieldChar_of_isSchemaName h c hc)
    rw [propertyKey, if_pos ((isHyphenated_iff name).mpr hhyphen)]
    exact iff_of_true (Or.inr ⟨rfl, hquotable⟩) (fun _ => hhyphen)
  · rw [propertyKey, if_neg (mt (isHyphenated_iff name).mp hhyphen), isKeyOf_self_iff,
      isIdentifier_iff h]
    simp [hhyphen]

/-- Quotes are put where they are needed unless a name has a dot and no hyphen. -/
theorem isHyphenated_iff_needed {name : String} (h : isSchemaName name = true) :
    (isHyphenated name = true ↔ isIdentifier name = false) ↔
      ('.' ∈ name.toList → '-' ∈ name.toList) := by
  rw [← Bool.not_eq_true, isIdentifier_iff h, isHyphenated_iff]
  by_cases hhyphen : '-' ∈ name.toList
  · simp [hhyphen]
  · simp [hhyphen]

/-! ## The fields of an interface -/

namespace ScriptType

mutual

/-- All fields in the type, at any depth and in the types of keys as well. -/
def nestedFields : ScriptType → List (Field ScriptType)
  | .primitive _ => []
  | .array element => nestedFields element
  | .union _ => []
  | .record key fields => nestedFields key ++ nestedFieldsAll fields
  | .interface _ fields => nestedFieldsAll fields

def nestedFieldsAll : List (Field ScriptType) → List (Field ScriptType)
  | [] => []
  | ⟨name, value, optional⟩ :: rest =>
    ⟨name, value, optional⟩ :: (nestedFields value ++ nestedFieldsAll rest)

end

end ScriptType

def Interface.nestedFields (i : Interface) : List (Field ScriptType) :=
  ScriptType.nestedFieldsAll i.fields

theorem LeafType.nestedFields_scriptType (strict : Bool) (t : LeafType) :
    (t.scriptType strict).nestedFields = [] := by
  obtain ⟨name, kind, values, bits, members, path⟩ := t
  cases kind <;> rfl

theorem nestedFields_scalarType (strict : Bool) (t : Option LeafType) :
    (scalarType strict t).nestedFields = [] := by
  cases t with
  | none => rfl
  | some t => exact t.nestedFields_scriptType strict

theorem mem_nestedFieldsAll {fields : List (Field ScriptType)} {f : Field ScriptType}
    (hf : f ∈ fields) :
    ∀ g ∈ f.value.nestedFields, g ∈ ScriptType.nestedFieldsAll fields := by
  intro g hg
  induction fields with
  | nil => exact absurd hf List.not_mem_nil
  | cons first rest ih =>
    rw [ScriptType.nestedFieldsAll, List.mem_cons, List.mem_append]
    rcases List.mem_cons.mp hf with rfl | hf
    · exact Or.inr (Or.inl hg)
    · exact Or.inr (Or.inr (ih hf))

/-- The type of a key is that of a field, and has no fields but the ones in it. -/
theorem nestedFields_keyType (key : Option String) (fields : List (Field ScriptType)) :
    ∀ g ∈ (keyType key fields).nestedFields, g ∈ ScriptType.nestedFieldsAll fields := by
  rw [keyType]
  split
  · rename_i f hfound
    exact mem_nestedFieldsAll (List.mem_of_find?_eq_some hfound)
  · intro g hg
    exact absurd hg List.not_mem_nil

namespace Entry

theorem nestedFields_scriptType (strict : Bool) {e : Entry} (h : e.kind ≠ .directory) :
    (e.scriptType strict).nestedFields = [] := by
  obtain ⟨name, kind, mandatory, inputOnly, operation, repeated, key, description, leafType,
    children⟩ := e
  cases kind
  case directory => exact absurd rfl h
  case leaf =>
    have hscalar := nestedFields_scalarType strict leafType
    cases repeated with
    | true => exact hscalar
    | false => exact hscalar
  all_goals rfl

theorem mem_lines_self (above : List Entry) (e : Entry) : ⟨above, e⟩ ∈ e.lines above := by
  obtain ⟨name, kind, mandatory, inputOnly, operation, repeated, key, description, leafType,
    children⟩ := e
  exact List.mem_cons_self

mutual

/-- The fields in the type of an entry bear the names of entries below it. -/
theorem name_of_nestedFields (strict : Bool) (above : List Entry) : (e : Entry) →
    ∀ f ∈ (e.scriptType strict).nestedFields, ∃ l ∈ e.lines above, l.entry.name = f.name
  | ⟨name, kind, mandatory, inputOnly, operation, repeated, key, description, leafType,
      children⟩ => by
    intro f hf
    by_cases hkind : kind = .directory
    · subst hkind
      have hfield : f ∈ ScriptType.nestedFieldsAll (scriptFields strict children) := by
        rcases List.mem_append.mp hf with hkey | hfield
        · exact nestedFields_keyType key _ f hkey
        · exact hfield
      obtain ⟨l, hl, hname⟩ := name_of_nestedFieldsAll strict _ children f hfield
      exact ⟨l, List.mem_cons_of_mem _ hl, hname⟩
    · rw [nestedFields_scriptType strict hkind] at hf
      exact absurd hf List.not_mem_nil

theorem name_of_nestedFieldsAll (strict : Bool) (above : List Entry) : (es : List Entry) →
    ∀ f ∈ ScriptType.nestedFieldsAll (scriptFields strict es),
      ∃ l ∈ linesAll above es, l.entry.name = f.name
  | [] => by simp [scriptFields, ScriptType.nestedFieldsAll]
  | e :: es => by
    intro f hf
    rw [linesAll]
    rcases List.mem_cons.mp hf with rfl | hf
    · exact ⟨⟨above, e⟩, List.mem_append_left _ (mem_lines_self above e), rfl⟩
    · rcases List.mem_append.mp hf with hfirst | hrest
      · obtain ⟨l, hl, hname⟩ := name_of_nestedFields strict above e f hfirst
        exact ⟨l, List.mem_append_left _ hl, hname⟩
      · obtain ⟨l, hl, hname⟩ := name_of_nestedFieldsAll strict above es f hrest
        exact ⟨l, List.mem_append_right _ hl, hname⟩

end

theorem linesAll_filter (p : Entry → Bool) (above : List Entry) (es : List Entry) :
    ∀ l ∈ linesAll above (es.filter p), l ∈ linesAll above es := by
  intro l hl
  induction es with
  | nil => exact hl
  | cons e es ih =>
    rw [linesAll, List.mem_append]
    by_cases he : p e = true
    · rw [List.filter_cons_of_pos he, linesAll, List.mem_append] at hl
      exact hl.imp_right ih
    · rw [List.filter_cons_of_neg he] at hl
      exact Or.inr (ih hl)

end Entry

theorem Module.name_of_nestedFields (m : Module) (strict : Bool) :
    ∀ f ∈ (m.interfaceOf strict).nestedFields, ∃ l ∈ m.lines, l.entry.name = f.name := by
  intro f hf
  obtain ⟨l, hl, hname⟩ := Entry.name_of_nestedFieldsAll strict [] _ f hf
  exact ⟨l, Entry.linesAll_filter Entry.isDeclared [] m.entries l hl, hname⟩

/-- A field of a module's interface, at whatever depth, bears the name of an entry. If this is a
name of the schema, what stands before the field's type is a key of the name, and quotes stand
around it if and only if they are needed, unless there is a dot in the name and no hyphen: then
neither holds. -/
theorem key_names_field_iff {m : Module} {strict : Bool} {i : Interface}
    (hi : (m.interface strict).value = .ok i) {f : Field ScriptType} (hf : f ∈ i.nestedFields) :
    (∃ l ∈ m.lines, l.entry.name = f.name) ∧
      ∃ key, f.render = key ++ (if f.optional then "?: " else ": ") ++ f.value.render ++ ";" ∧
        (isSchemaName f.name = true →
          (IsKeyOf f.name key ↔ ('.' ∈ f.name.toList → '-' ∈ f.name.toList)) ∧
          ((isHyphenated f.name = true ↔ isIdentifier f.name = false) ↔
            ('.' ∈ f.name.toList → '-' ∈ f.name.toList))) := by
  rw [Module.eq_interfaceOf hi] at hf
  refine ⟨m.name_of_nestedFields strict f hf, propertyKey f.name, rfl, fun hname => ?_⟩
  exact ⟨isKeyOf_propertyKey_iff hname, isHyphenated_iff_needed hname⟩

/-- A module with one leaf, which has a dot in its name. -/
def dottedLeaf : Module :=
  (Module.ofName "m").insert (Entry.leaf "a.b" (LeafType.ofKind .string))

theorem key_names_field_iff_dottedLeaf :
    let i := dottedLeaf.interfaceOf true
    let f : Field ScriptType := ⟨"a.b", .string, true⟩
    (dottedLeaf.interface true).value = .ok i ∧ f ∈ i.nestedFields ∧
      (∃ l ∈ dottedLeaf.lines, l.entry.name = f.name) ∧
      ∃ key, f.render = key ++ (if f.optional then "?: " else ": ") ++ f.value.render ++ ";" ∧
        (isSchemaName f.name = true →
          (IsKeyOf f.name key ↔ ('.' ∈ f.name.toList → '-' ∈ f.name.toList)) ∧
          ((isHyphenated f.name = true ↔ isIdentifier f.name = false) ↔
            ('.' ∈ f.name.toList → '-' ∈ f.name.toList))) := by
  intro i f
  have hi : (dottedLeaf.interface true).value = .ok i := rfl
  have hf : f ∈ i.nestedFields := List.mem_cons_self
  exact ⟨hi, hf, key_names_field_iff hi hf⟩

/-- The key `a.b` stands bare in the text, and is neither an identifier nor quoted. -/
theorem dotted_key_stands_bare :
    let f : Field ScriptType := ⟨"a.b", .string, true⟩
    (dottedLeaf.interface true).value = .ok ⟨"m", [f]⟩ ∧ isSchemaName f.name = true ∧
      f.render = "a.b?: string;" ∧ isHyphenated f.name = false ∧ isIdentifier f.name = false ∧
      ∀ key, f.render = key ++ "?: " ++ f.value.render ++ ";" → ¬ IsKeyOf f.name key := by
  intro f
  have hplain : isHyphenated f.name = false := by decide
  have hbare : isIdentifier f.name = false := by decide
  have hrender : f.render = f.name ++ "?: " ++ f.value.render ++ ";" := by
    rw [Field.render, renderField, propertyKey, hplain]
    rfl
  have htext : f.render = "a.b?: string;" := by
    rw [hrender]
    rfl
  refine ⟨rfl, by decide, htext, hplain, hbare, ?_⟩
  intro key hkey hnames
  rw [hrender, String.append_left_inj, String.append_left_inj, String.append_left_inj] at hkey
  rw [← hkey, isKeyOf_self_iff, hbare] at hnames
  exact absurd hnames (by simp)

end YangScript
