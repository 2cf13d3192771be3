import YangScript.Proofs.Agreement

/-!
# The comment on where a declaration comes from

A text that is generated with its header is a comment, an empty line, and the text that is generated
without the header. The comment holds the name, the current revision and the namespace of the module
as they stand in the document, and a value in a document may go over several lines. So the comment
keeps to its line if and only if no line ends in one of the three.
-/

set_option autoImplicit false

namespace YangScript

open Xml

/-- The characters at which a line of the generated language ends. -/
def isLineEnd (c : Char) : Bool :=
  c == '\n' || c == '\r' || c == '\u2028' || c == '\u2029'

def isOneLine (text : String) : Bool := text.toList.all (fun c => !isLineEnd c)

/-- The first line of a text, and what stands behind the end of that line. -/
def splitLine (text : String) : String × String :=
  (String.ofList (text.toList.takeWhile (fun c => !isLineEnd c)),
    String.ofList ((text.toList.dropWhile (fun c => !isLineEnd c)).drop 1))

theorem isOneLine_append (a b : String) : isOneLine (a ++ b) = (isOneLine a && isOneLine b) := by
  rw [isOneLine, String.toList_append, List.all_append]
  rfl

theorem isOneLine_splitLine (text : String) : isOneLine (splitLine text).1 = true := by
  rw [splitLine, isOneLine, String.toList_ofList]
  exact List.all_takeWhile

theorem splitLine_append {line : String} (h : isOneLine line = true) (rest : String) :
    splitLine (line ++ "\n" ++ rest) = (line, rest) := by
  have hline : ∀ c ∈ line.toList, (!isLineEnd c) = true := List.all_eq_true.mp h
  have hchars : (line ++ "\n" ++ rest).toList = line.toList ++ '\n' :: rest.toList := by simp
  have hend : isLineEnd '\n' = true := by decide
  rw [splitLine, hchars, List.takeWhile_append_of_pos hline, List.dropWhile_append_of_pos hline]
  simp [hend]

/-- The name, the current revision and the namespace, as far as there are any. -/
def Module.originTexts (m : Module) : List String :=
  m.name :: (m.current.toList ++ m.uri.toList)

theorem Module.isOneLine_originComment (m : Module) :
    isOneLine m.originComment = m.originTexts.all isOneLine := by
  have hopen : isOneLine "// Module: " = true := by decide
  have hat : isOneLine "@" = true := by decide
  have hnamespace : isOneLine " (Namespace: " = true := by decide
  have hclose : isOneLine ")" = true := by decide
  have hnone : isOneLine "none" = true := by decide
  rw [originComment, originTexts]
  cases m.current <;> cases m.uri <;>
    simp [isOneLine_append, hopen, hat, hnamespace, hclose, hnone, Bool.and_assoc]

/-- A text that is generated is that of a module with fields that is valid and no submodule. -/
theorem generateDocument_eq_some_iff (options : SourceOptions) (document text : String) :
    (generateDocument options document).value = .ok (some text) ↔
      ∃ m, Module.ofDocument document = .ok m ∧ m.validate = .ok () ∧ m.isSubmodule = false ∧
        (m.interfaceOf options.strict).isEmpty = false ∧
        text = m.sourceText (m.interfaceOf options.strict) options.style options.header := by
  constructor
  · intro h
    cases hload : Module.ofDocument document with
    | error e => simp [generateDocument, hload] at h
    | ok m =>
      rw [generateDocument_eq hload, m.source_value options] at h
      refine ⟨m, rfl, ?_⟩
      cases hvalid : m.validate with
      | error f => simp [hvalid] at h
      | ok u =>
        cases hsub : m.isSubmodule with
        | true => simp [hvalid, hsub] at h
        | false =>
          cases hempty : (m.interfaceOf options.strict).isEmpty with
          | true => simp [hvalid, hsub, hempty] at h
          | false =>
            rw [hvalid, hsub] at h
            simp only [hempty] at h
            exact ⟨rfl, rfl, rfl, (Option.some.inj (Except.ok.inj h)).symm⟩
  · rintro ⟨m, hload, hvalid, hsub, hempty, rfl⟩
    rw [generateDocument_eq hload, m.source_value options, hvalid, hsub]
    simp [hempty]

theorem Module.sourceText_header (m : Module) (i : Interface) (style : DeclarationForm) :
    m.sourceText i style true = m.originComment ++ "\n\n" ++ m.sourceText i style false := by
  simp [sourceText, String.append_assoc]

/-- With its header, a text is the comment, an empty line, and the text without it. The comment is
the first line of the text, and the empty line the second, if and only if no line ends in the name,
the current revision or the namespace of the module. -/
theorem origin_comment_keeps_its_line_iff {options : SourceOptions} {document text : String}
    (h : (generateDocument { options with header := true } document).value = .ok (some text)) :
    ∃ (m : Module) (bare : String), Module.ofDocument document = .ok m ∧
      (generateDocument { options with header := false } document).value = .ok (some bare) ∧
      text = m.originComment ++ "\n\n" ++ bare ∧
      ((∃ rest, splitLine text = (m.originComment, rest) ∧ splitLine rest = ("", bare)) ↔
        ∀ t ∈ m.originTexts, isOneLine t = true) := by
  obtain ⟨m, hload, hvalid, hsub, hempty, rfl⟩ := (generateDocument_eq_some_iff _ _ _).mp h
  have hbare := (generateDocument_eq_some_iff { options with header := false } document _).mpr
    ⟨m, hload, hvalid, hsub, hempty, rfl⟩
  refine ⟨m, _, hload, hbare, m.sourceText_header _ _, ?_⟩
  rw [m.sourceText_header]
  generalize m.sourceText _ options.style false = bare
  rw [← List.all_eq_true, ← m.isOneLine_originComment]
  constructor
  · rintro ⟨rest, hfirst, -⟩
    have hline := isOneLine_splitLine (m.originComment ++ "\n\n" ++ bare)
    rwa [hfirst] at hline
  · intro hline
    have hlines : m.originComment ++ "\n\n" ++ bare =
        m.originComment ++ "\n" ++ ("\n" ++ bare) := by
      have hbreaks : "\n\n" = "\n" ++ "\n" := rfl
      rw [hbreaks]
      simp only [String.append_assoc]
    refine ⟨"\n" ++ bare, ?_, ?_⟩
    · rw [hlines, splitLine_append hline]
    · have hnothing : splitLine ("" ++ "\n" ++ bare) = ("", bare) :=
        splitLine_append (by decide) bare
      simpa using hnothing

/-- A document whose namespace goes over two lines. -/
def brokenOriginDocument : String :=
  "<module name=\"m\" namespace=\"urn:m)\nexport const x = 1; // (\">" ++
    "<leaf name=\"x\"><type kind=\"string\"/></leaf></module>"

def brokenOriginModule : Module :=
  { Module.ofName "m" with
    uri := some "urn:m)\nexport const x = 1; // ("
    entries := [Entry.leaf "x" (LeafType.ofKind .string)] }

theorem ofDocument_brokenOrigin :
    Module.ofDocument brokenOriginDocument = .ok brokenOriginModule := by
  let name : AttributeText := .plain (.ofString "name" (by decide)) "m" (by decide)
  let namespaceUri : AttributeText :=
    .plain (.ofString "namespace" (by decide)) "urn:m)\nexport const x = 1; // (" (by decide)
  let d : Document :=
    { marked := false
      content := .next .none
        (.element ⟨.ofString "module" (by decide), [name, namespaceUri], by decide, .none⟩
          (.next .none
            (.element (.plain "leaf" "name" "x" (by decide) (by decide) (by decide))
              (.next .none
                (.empty (.plain "type" "kind" "string" (by decide) (by decide) (by decide)))
                (.last .none))
              .none)
            (.last .none))
          .none)
        (.last .none)
      unmarked := by decide }
  have htext : d.text = brokenOriginDocument := by decide +kernel
  rw [← htext, Module.ofDocument_text d rfl]
  rfl

/-- What the document comes to with a header. -/
def brokenOriginText : String :=
  "// Module: m (Namespace: urn:m)\nexport const x = 1; // ()\n\n" ++
    "export interface M \x7b\nx?: string;\n\x7d\n"

theorem generateDocument_brokenOrigin :
    (generateDocument SourceOptions.default brokenOriginDocument).value =
      .ok (some brokenOriginText) := by
  rw [generateDocument_eq ofDocument_brokenOrigin]
  rfl

/-- The text is what it must be, and its comment does not keep to the line. -/
theorem origin_comment_keeps_its_line_iff_brokenOrigin :
    (generateDocument { SourceOptions.default with header := true } brokenOriginDocument).value =
        .ok (some brokenOriginText) ∧
      ∃ (m : Module) (bare : String), Module.ofDocument brokenOriginDocument = .ok m ∧
        (generateDocument { SourceOptions.default with header := false }
          brokenOriginDocument).value = .ok (some bare) ∧
        brokenOriginText = m.originComment ++ "\n\n" ++ bare ∧
        ((∃ rest, splitLine brokenOriginText = (m.originComment, rest) ∧
            splitLine rest = ("", bare)) ↔
          ∀ t ∈ m.originTexts, isOneLine t = true) :=
  ⟨generateDocument_brokenOrigin, origin_comment_keeps_its_line_iff generateDocument_brokenOrigin⟩

/-- What stands in the namespace behind its first line becomes a line of the text. -/
theorem namespace_leaves_origin_comment :
    Module.ofDocument brokenOriginDocument = .ok brokenOriginModule ∧
      (generateDocument SourceOptions.default brokenOriginDocument).value =
        .ok (some brokenOriginText) ∧
      (splitLine brokenOriginText).1 = "// Module: m (Namespace: urn:m)" ∧
      brokenOriginModule.originComment ≠ "// Module: m (Namespace: urn:m)" ∧
      (splitLine (splitLine brokenOriginText).2).1 = "export const x = 1; // ()" := by
  refine ⟨ofDocument_brokenOrigin, generateDocument_brokenOrigin, ?_, ?_, ?_⟩
  · decide +kernel
  · decide +kernel
  · decide +kernel

end YangScript
