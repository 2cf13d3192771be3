import YangScript.Proofs.DeclarationReading
import YangScript.Proofs.Identifiers

/-!
# The names of the declarations

The word behind `export interface` or `export type` is made of a module's name: its hyphens and
underscores go, and all else stays, some letters as capitals. Of a name of the schema it is an
identifier if there is no dot in the name, and no digit comes before all its letters.
-/

set_option autoImplicit false

namespace YangScript

/-- The words that stand before the name of a declaration. -/
def DeclarationForm.words : DeclarationForm → String
  | .interface => "export interface "
  | .typeAlias => "export type "

/-- The first character of a name that its declaration does not leave out. -/
def firstKept? (name : String) : Option Char := name.toList.find? (fun c => !Text.isDelimiter c)

theorem DeclarationForm.exists_opening (style : DeclarationForm) (name : String) :
    ∃ mark, style.opening name = style.words ++ Text.pascalCase name ++ " " ++ mark := by
  cases style with
  | interface => exact ⟨"\x7b\n", rfl⟩
  | typeAlias =>
    have hmark : " = " = " " ++ "= " := rfl
    refine ⟨"= " ++ "\x7b\n", ?_⟩
    calc
      opening .typeAlias name =
          "export type " ++ Text.pascalCase name ++ " = " ++ "\x7b\n" := rfl
      _ = words .typeAlias ++ Text.pascalCase name ++ " " ++ ("= " ++ "\x7b\n") := by
        rw [hmark, words]
        simp only [String.append_assoc]

theorem name_of_source {m : Module} {options : SourceOptions} {text : String}
    (h : (m.source options).value = .ok (some text)) :
    ∃ rest, text = (if options.header then m.originComment ++ "\n\n" else "") ++
      options.style.words ++ Text.pascalCase m.name ++ " " ++ rest := by
  rw [m.source_value options] at h
  split at h
  · exact absurd h (by simp)
  · dsimp only at h
    split at h
    · exact absurd h (by simp)
    · obtain rfl := Option.some.inj (Except.ok.inj h)
      obtain ⟨mark, hmark⟩ := options.style.exists_opening m.name
      have hname : (m.interfaceOf options.strict).name = m.name := rfl
      rw [Module.sourceText, Interface.declaration_eq, hname, hmark]
      simp only [String.append_assoc]
      exact ⟨_, rfl⟩

/-! ## Which names become identifiers -/

theorem isIdentifierPart_toUpper {c : Char} (h : c.toNat < 128) :
    isIdentifierPart c.toUpper = isIdentifierPart c :=
  Text.of_ascii (p := fun c => isIdentifierPart c.toUpper = isIdentifierPart c) (by decide) h

theorem isIdentifierStart_toUpper {c : Char} (h : c.toNat < 128) :
    isIdentifierStart c.toUpper = isIdentifierStart c :=
  Text.of_ascii (p := fun c => isIdentifierStart c.toUpper = isIdentifierStart c) (by decide) h

theorem isIdentifierStart_iff {c : Char} (h : c.toNat < 128) :
    c.isAlphanum = true → (isIdentifierStart c = true ↔ c.isDigit = false) :=
  Text.of_ascii
    (p := fun c => c.isAlphanum = true → (isIdentifierStart c = true ↔ c.isDigit = false))
    (by decide) h

theorem ne_space_toUpper {c : Char} (h : c.toNat < 128) : (c.toUpper != ' ') = (c != ' ') :=
  Text.of_ascii (p := fun c => (c.toUpper != ' ') = (c != ' ')) (by decide) h

section

variable {name : String} (h : isSchemaName name = true)

include h

theorem lt_of_isSchemaName : ∀ c ∈ name.toList, c.toNat < 128 := by
  intro c hc
  exact lt_of_isFieldChar (isFieldChar_of_isSchemaName h c hc)

theorem space_not_mem_pascalCase : ' ' ∉ (Text.pascalCase name).toList := by
  have hall : ∀ d ∈ Text.compound true name.toList, (d != ' ') = true := by
    rw [Text.forall_mem_compound_iff (p := fun c => c != ' ') (fun _ => ne_space_toUpper) true
      (lt_of_isSchemaName h)]
    intro c hc _
    rw [bne_iff_ne]
    rintro rfl
    exact absurd (isFieldChar_of_isSchemaName h _ hc) (by decide)
  intro hmem
  rw [Text.pascalCase, String.toList_ofList] at hmem
  exact absurd (hall _ hmem) (by decide)

/-- Hyphens go, so that a dot is all that can keep a part of the word from being one. -/
theorem forall_isIdentifierPart_iff :
    (∀ d ∈ Text.compound true name.toList, isIdentifierPart d = true) ↔ '.' ∉ name.toList := by
  have hchars := isFieldChar_of_isSchemaName h
  rw [Text.forall_mem_compound_iff (fun _ => isIdentifierPart_toUpper) true (lt_of_isSchemaName h)]
  constructor
  · intro hall hdot
    exact absurd (hall _ hdot (by decide)) (by decide)
  · intro hdot c hc hletter
    rw [isIdentifierPart_iff (hchars c hc)]
    constructor
    · rintro rfl
      exact absurd hletter (by decide)
    · rintro rfl
      exact hdot hc

/-- A letter or digit in the name is no delimiter, so that some character is kept. -/
theorem exists_firstKept (hword : ∃ c ∈ name.toList, c.isAlphanum = true) :
    ∃ c, firstKept? name = some c ∧ c ∈ name.toList ∧ (c ≠ '.' → c.isAlphanum = true) := by
  obtain ⟨c, hc, halnum⟩ := hword
  have hkept : (firstKept? name).isSome = true := by
    rw [firstKept?, List.find?_isSome]
    refine ⟨c, hc, ?_⟩
    rw [Bool.not_eq_true', Text.isDelimiter, Bool.or_eq_false_iff, beq_eq_false_iff_ne,
      beq_eq_false_iff_ne]
    constructor
    · rintro rfl
      exact absurd halnum (by decide)
    · rintro rfl
      exact absurd halnum (by decide)
  obtain ⟨first, hfirst⟩ := Option.isSome_iff_exists.mp hkept
  have hmem : first ∈ name.toList := List.mem_of_find?_eq_some hfirst
  refine ⟨first, hfirst, hmem, fun hdot => ?_⟩
  have hchar := isFieldChar_of_isSchemaName h first hmem
  have hletter : Text.isDelimiter first = false := by simpa using List.find?_some hfirst
  rw [Text.isDelimiter, Bool.or_eq_false_iff] at hletter
  simpa [isFieldChar, hletter, hdot] using hchar

/-- The joined word of a name of the schema is an identifier if and only if there is no dot in the
name and no digit is the first character that is kept. -/
theorem isIdentifier_pascalCase_iff (hword : ∃ c ∈ name.toList, c.isAlphanum = true) :
    isIdentifier (Text.pascalCase name) = true ↔
      '.' ∉ name.toList ∧ ∀ c, firstKept? name = some c → c.isDigit = false := by
  obtain ⟨first, hfirst, hmem, hclass⟩ := exists_firstKept h hword
  have hascii := lt_of_isSchemaName h first hmem
  have hhead := Text.head?_compound (lt_of_isSchemaName h)
  rw [← firstKept?, hfirst, Option.map_some] at hhead
  rw [isIdentifier, Text.pascalCase, String.toList_ofList, isWord_identifier_iff,
    forall_isIdentifierPart_iff h, hhead, hfirst, and_comm]
  apply and_congr_right
  intro hdot
  have halnum : first.isAlphanum = true := by
    apply hclass
    rintro rfl
    exact hdot hmem
  have hiff := isIdentifierStart_iff hascii halnum
  rw [← isIdentifierStart_toUpper hascii] at hiff
  simpa using hiff

end

/-- The word behind the first words of the declaration is an identifier, for a module whose name is one
of the schema and holds a letter or a digit, if and only if there is no dot in the module's name and
no digit is the first of its characters that is kept. -/
theorem declared_name_identifier_iff {m : Module} {options : SourceOptions} {text : String}
    (htext : (m.source options).value = .ok (some text)) (hname : isSchemaName m.name = true)
    (hword : ∃ c ∈ m.name.toList, c.isAlphanum = true) :
    ∃ declared rest : String, declared = Text.pascalCase m.name ∧
      text = (if options.header then m.originComment ++ "\n\n" else "") ++
        options.style.words ++ declared ++ " " ++ rest ∧
      ' ' ∉ declared.toList ∧
      (isIdentifier declared = true ↔
        '.' ∉ m.name.toList ∧ ∀ c, firstKept? m.name = some c → c.isDigit = false) := by
  obtain ⟨rest, hrest⟩ := name_of_source htext
  exact ⟨Text.pascalCase m.name, rest, rfl, hrest, space_not_mem_pascalCase hname,
    isIdentifier_pascalCase_iff hname hword⟩

/-- A module with one leaf. -/
def moduleNamed (name : String) : Module :=
  (Module.ofName name).insert (Entry.leaf "x" (LeafType.ofKind .string))

def bareSource : SourceOptions := { strict := true, style := .interface, header := false }

theorem source_moduleNamed (name : String) :
    ((moduleNamed name).source bareSource).value =
      .ok (some (Interface.declaration .interface ⟨name, [⟨"x", .string, true⟩]⟩ ++ "\n")) := rfl

theorem declared_name_identifier_iff_dotted :
    let m := moduleNamed "a.b"
    let text := "export interface A.b \x7b\nx?: string;\n\x7d\n"
    (m.source bareSource).value = .ok (some text) ∧ isSchemaName m.name = true ∧
      (∃ c ∈ m.name.toList, c.isAlphanum = true) ∧
      ∃ declared rest : String, declared = Text.pascalCase m.name ∧
        text = (if bareSource.header then m.originComment ++ "\n\n" else "") ++
          bareSource.style.words ++ declared ++ " " ++ rest ∧
        ' ' ∉ declared.toList ∧
        (isIdentifier declared = true ↔
          '.' ∉ m.name.toList ∧ ∀ c, firstKept? m.name = some c → c.isDigit = false) := by
  intro m text
  have htext : (m.source bareSource).value = .ok (some text) := by
    rw [source_moduleNamed]
    rfl
  have hname : isSchemaName m.name = true := by decide
  have hword : ∃ c ∈ m.name.toList, c.isAlphanum = true := ⟨'a', by decide, by decide⟩
  exact ⟨htext, hname, hword, declared_name_identifier_iff htext hname hword⟩

/-- A dot stays where it is, and so does a digit behind underscores. -/
theorem declared_names_are_no_identifiers :
    ((moduleNamed "a.b").source bareSource).value =
        .ok (some "export interface A.b \x7b\nx?: string;\n\x7d\n") ∧
      isSchemaName "a.b" = true ∧ isIdentifier "A.b" = false ∧
      ((moduleNamed "_1").source bareSource).value =
        .ok (some "export interface 1 \x7b\nx?: string;\n\x7d\n") ∧
      isSchemaName "_1" = true ∧ isIdentifier "1" = false := by
  rw [source_moduleNamed, source_moduleNamed]
  refine ⟨?_, by decide, by decide, ?_, by decide, by decide⟩
  · rfl
  · rfl

end YangScript
