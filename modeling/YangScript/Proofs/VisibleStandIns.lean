import YangScript.Proofs.Alternatives
import YangScript.Proofs.KeyTypes
import YangScript.Proofs.StandIns

/-!
# Stand-ins show in the text

A stand-in is `unknown` in the strict text and `any` in the permissive one. Both texts of an entry
are read from the left at the same time: as long as they agree, the marks between their items stand
at the same places, and a stand-in that is reached is a place where they do not agree. Inside
unions, where the order of the members is that of their texts, `unknown` is a piece of the strict
text only. A module has one text for both settings if and only if no stand-in is reached; and where
the check finds nothing, if and only if the walk comes to no vague entry.
-/

set_option autoImplicit false

namespace YangScript

theorem literal_ne_keyword (value : String) (p : Primitive) : literal value ≠ p.keyword := by
  intro h
  have hhead : p.keyword.toList.head? = some '\x27' := by
    rw [← h]
    simp [literal]
  cases p <;> exact absurd hhead (by decide)

namespace LeafType

mutual

theorem unknown_mem_choices : (t : LeafType) → t.isPrecise = false →
    Primitive.unknown.keyword ∈ t.choices true
  | ⟨_, kind, _, _, members, _⟩, h => by
    cases kind
    case union =>
      have hmembers : members ≠ [] := by
        rintro rfl
        exact absurd h (by simp [isPrecise, allPrecise])
      rw [choices, if_neg (by simpa using hmembers)]
      exact unknown_mem_choicesAll members h
    case leafRef => exact List.mem_singleton_self _
    case unknown => exact List.mem_singleton_self _
    all_goals exact absurd h (by simp [isPrecise])

theorem unknown_mem_choicesAll : (ts : List LeafType) → allPrecise ts = false →
    Primitive.unknown.keyword ∈ choicesAll true ts
  | [], h => absurd h (by simp [allPrecise])
  | t :: ts, h => by
    rw [choicesAll, List.mem_append]
    rw [allPrecise, Bool.and_eq_false_iff] at h
    exact h.imp (unknown_mem_choices t) (unknown_mem_choicesAll ts)

end

mutual

theorem unknown_not_mem_choices : (t : LeafType) → Primitive.unknown.keyword ∉ t.choices false
  | ⟨_, kind, values, _, members, _⟩ => by
    have hkeyword : ∀ p : Primitive, p ≠ .unknown → Primitive.unknown.keyword ∉ [p.keyword] := by
      intro p hp
      cases p
      case unknown => exact absurd rfl hp
      all_goals decide
    have hbits : Primitive.unknown.keyword ∉ [(ScriptType.array .string).render] := by
      decide +kernel
    cases kind
    case bits => exact hbits
    case enumeration =>
      rw [choices]
      split
      · exact hkeyword .never (by decide)
      · intro hmem
        obtain ⟨value, -, hvalue⟩ := List.mem_map.mp hmem
        exact literal_ne_keyword value .unknown hvalue
    case union =>
      rw [choices]
      split
      · exact hkeyword .never (by decide)
      · exact unknown_not_mem_choicesAll members
    all_goals exact hkeyword _ (by decide)

theorem unknown_not_mem_choicesAll : (ts : List LeafType) →
    Primitive.unknown.keyword ∉ choicesAll false ts
  | [] => by simp [choicesAll]
  | t :: ts => by
    rw [choicesAll, List.mem_append, not_or]
    exact ⟨unknown_not_mem_choices t, unknown_not_mem_choicesAll ts⟩

end

theorem isPrecise_of_render {t : LeafType}
    (h : (t.scriptType true).render = (t.scriptType false).render) : t.isPrecise = true := by
  cases hprecise : t.isPrecise with
  | true => rfl
  | false =>
    have hpiece := (t.mem_pieces_render_iff true _).mpr (t.unknown_mem_choices hprecise)
    rw [h, t.mem_pieces_render_iff false] at hpiece
    exact absurd hpiece t.unknown_not_mem_choices

end LeafType

theorem render_array_inj {s t : ScriptType}
    (h : (ScriptType.array s).render = (ScriptType.array t).render) : s.render = t.render := by
  rwa [ScriptType.render, ScriptType.render, String.append_left_inj, String.append_right_inj] at h

/-- A leaf whose two renderings are one has a type, and a precise one. -/
theorem isPrecise_of_scalar {leafType : Option LeafType}
    (h : (scalarType true leafType).render = (scalarType false leafType).render) :
    ∃ t, leafType = some t ∧ t.isPrecise = true := by
  cases leafType with
  | none => exact absurd h (by decide)
  | some t => exact ⟨t, rfl, t.isPrecise_of_render h⟩

theorem toList_block_append (lines : List String) (rest : List Char) :
    (block lines).toList ++ rest =
      '\x7b' :: '\n' :: ((Text.join "\n" lines).toList ++ '\n' :: '\x7d' :: rest) := by
  simp [block]

namespace Entry

/-- Before a mark the two renderings of the entry agree only if no stand-in is reached, and then
what is behind the mark has to agree. -/
def ShowsStandIns (e : Entry) : Prop :=
  ∀ (c : Char) (rest rest' : List Char), isMark c = true →
    (e.scriptType true).render.toList ++ c :: rest =
      (e.scriptType false).render.toList ++ c :: rest' →
    e.isPrecise = true ∧ rest = rest'

theorem readable_of_ne (strict : Bool) {e : Entry} (h : e.kind ≠ .directory) :
    (e.scriptType strict).Readable := by
  obtain ⟨name, kind, mandatory, inputOnly, operation, repeated, key, description, leafType,
    children⟩ := e
  cases kind
  case directory => exact absurd rfl h
  case leaf => cases repeated <;> exact readable_scalarType strict leafType
  all_goals trivial

theorem isPrecise_of_render_of_ne {e : Entry} (hkind : e.kind ≠ .directory)
    (h : (e.scriptType true).render = (e.scriptType false).render) : e.isPrecise = true := by
  obtain ⟨name, kind, mandatory, inputOnly, operation, repeated, key, description, leafType,
    children⟩ := e
  have hstandIn : (standIn true).render ≠ (standIn false).render := by decide
  cases kind
  case anyXml => rfl
  case leaf =>
    have hscalar : (scalarType true leafType).render = (scalarType false leafType).render := by
      cases repeated with
      | true => exact render_array_inj h
      | false => exact h
    obtain ⟨t, rfl, hprecise⟩ := isPrecise_of_scalar hscalar
    exact hprecise
  case directory => exact absurd rfl hkind
  all_goals exact absurd h hstandIn

theorem showsStandIns_of_ne {e : Entry} (h : e.kind ≠ .directory) : e.ShowsStandIns := by
  intro c rest rest' hc heq
  have hstrict := ScriptType.balanced_render _ (readable_of_ne true h)
  have hpermissive := ScriptType.balanced_render _ (readable_of_ne false h)
  obtain ⟨hrender, hrest⟩ := hstrict.eq_of_append hpermissive hc heq
  exact ⟨isPrecise_of_render_of_ne h (String.toList_inj.mp hrender), hrest⟩

/-! ## Records -/

/-- The lines of the fields that some entries make. -/
def fieldLines (strict : Bool) (es : List Entry) : List String :=
  ScriptType.renderFields (scriptFields strict es)

theorem fieldLines_isEmpty (strict : Bool) (es : List Entry) :
    (fieldLines strict es).isEmpty = es.isEmpty := by
  cases es <;> rfl

/-- The lines of some entries agree up to a line end only if no stand-in is reached in them. -/
theorem allPrecise_of_lines {es : List Entry} (h : ∀ e ∈ es, e.ShowsStandIns)
    {rest rest' : List Char}
    (heq : (Text.join "\n" (fieldLines true es)).toList ++ '\n' :: rest =
      (Text.join "\n" (fieldLines false es)).toList ++ '\n' :: rest') :
    allPrecise es = true ∧ rest = rest' := by
  induction es with
  | nil => exact ⟨rfl, (List.cons.inj heq).2⟩
  | cons e es ih =>
    obtain ⟨he, hes⟩ := List.forall_mem_cons.mp h
    -- The key and the mark of the field are the same in both, and a semicolon ends its type.
    have hfield : ∀ strict tail, (Text.join "\n" (fieldLines strict (e :: es))).toList ++ tail =
        (propertyKey e.name ++ if !e.mandatory then "?: " else ": ").toList ++
          ((e.scriptType strict).render.toList ++ ';' ::
            ((if es.isEmpty then "" else "\n" ++ Text.join "\n" (fieldLines strict es)).toList ++
              tail)) := by
      intro strict tail
      rw [← fieldLines_isEmpty strict es, fieldLines, scriptFields, ScriptType.renderFields,
        Text.join_cons]
      simp [renderField, fieldLines]
    rw [hfield, hfield] at heq
    obtain ⟨hprecise, htail⟩ := he ';' _ _ (by decide) (List.append_cancel_left heq)
    rw [allPrecise, hprecise, Bool.true_and]
    cases es with
    | nil => exact ⟨rfl, (List.cons.inj htail).2⟩
    | cons e' es' =>
      apply ih hes
      simpa using htail

theorem isPrecise_directory {e : Entry} (h : e.kind = .directory) :
    e.isPrecise = allPrecise e.children := by
  cases e
  subst h
  rfl

theorem render_directory {strict : Bool} {e : Entry} (h : e.kind = .directory)
    (hne : e.children ≠ []) :
    (e.scriptType strict).render =
      if (e.wholeKeyType strict).render = Primitive.string.keyword then
        block (fieldLines strict e.children)
      else "Record<" ++ (e.wholeKeyType strict).render ++ ", " ++
        block (fieldLines strict e.children) ++ ">" := by
  have hlines : (fieldLines strict e.children).isEmpty = false := by
    rw [fieldLines_isEmpty]
    simpa using hne
  rw [scriptType_directory strict h, ScriptType.render, ← fieldLines, renderRecord, hlines]
  rfl

/-- The key of a record is `string` in both texts or in neither. -/
theorem wholeKeyText_iff (e : Entry) :
    (e.wholeKeyType true).render = Primitive.string.keyword ↔
      (e.wholeKeyType false).render = Primitive.string.keyword := by
  have hkeys := ((relaxesFields_scriptFields e.children).keyType e.key).readsAsString_eq
  rwa [keyType_children, keyType_children, Bool.eq_iff_iff, ScriptType.readsAsString,
    ScriptType.readsAsString, beq_iff_eq, beq_iff_eq] at hkeys

variable {e : Entry} (h : ∀ child ∈ e.children, child.ShowsStandIns)

include h

theorem allPrecise_of_block {rest rest' : List Char}
    (heq : (block (fieldLines true e.children)).toList ++ rest =
      (block (fieldLines false e.children)).toList ++ rest') :
    allPrecise e.children = true ∧ rest = rest' := by
  rw [toList_block_append, toList_block_append] at heq
  obtain ⟨hprecise, hrest⟩ := allPrecise_of_lines h (List.cons.inj (List.cons.inj heq).2).2
  exact ⟨hprecise, (List.cons.inj hrest).2⟩

/-- What follows the comma behind the key of a record. -/
theorem eq_of_keyText {rest rest' : List Char}
    (heq : (e.wholeKeyType true).render.toList ++ ',' :: rest =
      (e.wholeKeyType false).render.toList ++ ',' :: rest') : rest = rest' := by
  rw [wholeKeyType, wholeKeyType] at heq
  cases hchild : e.key.bind e.child? with
  | none =>
    rw [hchild] at heq
    exact (List.cons.inj (List.append_cancel_left heq)).2
  | some child =>
    rw [hchild] at heq
    obtain ⟨name, -, hfound⟩ := Option.bind_eq_some_iff.mp hchild
    exact (h child (List.mem_of_find?_eq_some hfound) ',' rest rest' (by decide) heq).2

omit h in
/-- A record without children is written in one way. -/
theorem showsStandIns_of_no_children (hkind : e.kind = .directory) (hnone : e.children = []) :
    e.ShowsStandIns := by
  intro c rest rest' _ heq
  have hprecise : e.isPrecise = true := by
    rw [isPrecise_directory hkind, hnone]
    rfl
  rw [e.scriptType_of_precise hprecise] at heq
  exact ⟨hprecise, (List.cons.inj (List.append_cancel_left heq)).2⟩

theorem showsStandIns_directory (hkind : e.kind = .directory) : e.ShowsStandIns := by
  by_cases hnone : e.children = []
  · exact showsStandIns_of_no_children hkind hnone
  intro c rest rest' _ heq
  rw [render_directory hkind hnone, render_directory hkind hnone] at heq
  rw [isPrecise_directory hkind]
  have hkeys := e.wholeKeyText_iff
  by_cases htext : (e.wholeKeyType true).render = Primitive.string.keyword
  · rw [if_pos htext, if_pos (hkeys.mp htext)] at heq
    obtain ⟨hall, hrest⟩ := allPrecise_of_block h heq
    exact ⟨hall, (List.cons.inj hrest).2⟩
  · rw [if_neg htext, if_neg fun hfalse => htext (hkeys.mpr hfalse)] at heq
    have hchars : (e.wholeKeyType true).render.toList ++ ',' ::
          (' ' :: ((block (fieldLines true e.children)).toList ++ '>' :: c :: rest)) =
        (e.wholeKeyType false).render.toList ++ ',' ::
          (' ' :: ((block (fieldLines false e.children)).toList ++ '>' :: c :: rest')) := by
      simpa using heq
    have hblock := (List.cons.inj (eq_of_keyText h hchars)).2
    obtain ⟨hall, hrest⟩ := allPrecise_of_block h hblock
    exact ⟨hall, (List.cons.inj (List.cons.inj hrest).2).2⟩

omit h

mutual

theorem showsStandIns : (e : Entry) → e.ShowsStandIns
  | ⟨name, kind, mandatory, inputOnly, operation, repeated, key, description, leafType,
      children⟩ => by
    by_cases hkind : kind = .directory
    · exact showsStandIns_directory (showsStandIns_all children) hkind
    · exact showsStandIns_of_ne hkind

theorem showsStandIns_all : (es : List Entry) → ∀ e ∈ es, e.ShowsStandIns
  | [] => by simp
  | e :: es => List.forall_mem_cons.mpr ⟨showsStandIns e, showsStandIns_all es⟩

end

end Entry

/-! ## Modules -/

namespace Module

theorem isPrecise_of_declaration {m : Module} {style : DeclarationForm}
    (h : (m.interfaceOf true).declaration style = (m.interfaceOf false).declaration style) :
    m.isPrecise = true := by
  have hname : ∀ strict, (m.interfaceOf strict).name = m.name := fun _ => rfl
  rw [Interface.declaration_eq, Interface.declaration_eq, hname, hname, String.append_left_inj,
    String.append_right_inj] at h
  have hlines := congrArg (fun text => text.toList ++ '\n' :: []) h
  exact (Entry.allPrecise_of_lines (fun e _ => e.showsStandIns) hlines).1

/-- Of a module that is no submodule, the strict text and the permissive one are the same if and
only if no stand-in is reached. -/
theorem source_eq_iff_isPrecise {m : Module} (hsub : m.isSubmodule = false)
    (style : DeclarationForm) (header : Bool) :
    (m.source { strict := true, style, header }).value =
      (m.source { strict := false, style, header }).value ↔ m.isPrecise = true := by
  rw [source_value, source_value, hsub, if_neg (by simp), if_neg (by simp)]
  constructor
  · intro heq
    have htexts := Except.ok.inj heq
    have hempty : (m.interfaceOf true).isEmpty = (m.interfaceOf false).isEmpty :=
      (Entry.relaxesFields_scriptFields (m.entries.filter Entry.isDeclared)).isEmpty_eq
    dsimp only at htexts
    rw [hempty] at htexts
    cases hnone : (m.interfaceOf false).isEmpty with
    | true =>
      have hfields : m.entries.filter Entry.isDeclared = [] := by
        rw [← List.isEmpty_iff, ← Entry.fieldLines_isEmpty false, Entry.fieldLines,
          ScriptType.renderFields_eq_map, List.isEmpty_map]
        exact hnone
      rw [isPrecise, hfields]
      rfl
    | false =>
      rw [hnone, if_neg (by simp), if_neg (by simp), Option.some.injEq, sourceText, sourceText,
        String.append_left_inj, String.append_right_inj] at htexts
      exact isPrecise_of_declaration htexts
  · intro hprecise
    have hsame : m.interfaceOf true = m.interfaceOf false := by
      rw [interfaceOf, Entry.scriptFields_of_precise _ hprecise, interfaceOf]
    rw [hsame]

end Module

/-- Where the check finds nothing, stand-ins are due to vague entries: none is made, for an entry
that the walk comes to or for a member of a union, if and only if the walk comes to no vague entry;
and only then the strict text and the permissive one are the same. -/
theorem stand_ins_iff_vague {m : Module} (strict : Bool) (style : DeclarationForm) (header : Bool)
    (hsub : m.isSubmodule = false) (hfindings : m.findings = []) :
    ((∀ t ∈ m.made strict, t ≠ standIn strict) ↔
      ∀ l ∈ m.lines, l.isWalked = true → l.entry.isVague = false) ∧
    ((m.source { strict := true, style, header }).value =
      (m.source { strict := false, style, header }).value ↔
        ∀ l ∈ m.lines, l.isWalked = true → l.entry.isVague = false) := by
  rw [← m.isPrecise_iff_made strict, Module.source_eq_iff_isPrecise hsub,
    Module.isPrecise_iff_no_vague hfindings]
  exact ⟨Iff.rfl, Iff.rfl⟩

/-- A reference to another leaf, and nothing else. -/
def referenceModule : Module :=
  { Module.ofName "m" with entries := [Entry.leaf "x" (LeafType.ofKind .leafRef)] }

/-- A union of a union is not vague by itself. -/
theorem stand_ins_iff_vague_nestedModule :
    nestedModule.isSubmodule = false ∧ nestedModule.findings = [] ∧
      (∀ t ∈ nestedModule.made true, t ≠ standIn true) ∧
      (nestedModule.source { strict := true, style := .interface, header := false }).value =
        (nestedModule.source { strict := false, style := .interface, header := false }).value := by
  have hvague : ∀ l ∈ nestedModule.lines, l.isWalked = true → l.entry.isVague = false := by
    decide
  obtain ⟨hmade, htexts⟩ := stand_ins_iff_vague true .interface false
    (rfl : nestedModule.isSubmodule = false) rfl
  exact ⟨rfl, rfl, hmade.mpr hvague, htexts.mpr hvague⟩

/-- The check finds nothing, and yet the reference is given the stand-in and the texts differ. -/
theorem reference_falls_back_without_finding :
    referenceModule.isSubmodule = false ∧ referenceModule.findings = [] ∧
      standIn true ∈ referenceModule.made true ∧
      (referenceModule.source { SourceOptions.default with strict := true }).value ≠
        (referenceModule.source { SourceOptions.default with strict := false }).value := by
  refine ⟨rfl, rfl, by decide, ?_⟩
  intro heq
  rw [Module.source_value, Module.source_value] at heq
  have htexts := Option.some.inj (Except.ok.inj heq)
  exact absurd htexts (by decide +kernel)

end YangScript
