import YangScript.Proofs.RoundTrip

/-!
# Every module that can be expressed has a document

A plain value can be written between quotes, and so there is a tag for every list of fields, an
element for every type and for every entry that can be expressed, and a document for every such
module. With what every document of a module is read as, this is the whole of the format.
-/

set_option autoImplicit false

namespace YangScript

open Xml Text

theorem Entry.allExpressible_iff (es : List Entry) :
    AllExpressible es ↔ ∀ e ∈ es, e.Expressible := by
  induction es with
  | nil => simp [AllExpressible]
  | cons e es ih => simp [AllExpressible, ih]

namespace Xml

theorem not_mem_of_plain {s : String} (h : Plain s) : '"' ∉ s.toList := by
  intro hm
  exact absurd (h _ hm) (by decide)

def AttributeText.plain (key : Name) (value : String) (h : Plain value) : AttributeText where
  lead := .space
  apart := by simp [Blanks.space]
  key := key
  before := .none
  after := .none
  quote := '"'
  quoting := rfl
  value := value.toList
  closed := not_mem_of_plain h

/-- A tag with one attribute. -/
def TagText.plain (element key value : String) (he : IsName element) (hk : IsName key)
    (hv : Plain value) : TagText :=
  ⟨.ofString element he, [.plain (.ofString key hk) value hv], by simp, .none⟩

section

variable {element key value : String} (he : IsName element) (hk : IsName key) (hv : Plain value)

theorem TagText.element_plain : (plain element key value he hk hv).element = element :=
  String.ofList_toList

theorem Node.value?_plain :
    (Node.empty (.plain element key value he hk hv)).value? key = some value := by
  simp [value?, tag?, TagText.value?, TagText.written, TagText.plain, AttributeText.attribute,
    AttributeText.plain, Name.ofString, valueIn, Attribute.valueFor]

end

/-- The attributes that the fields with a value make. -/
def fieldAttributes (fields : List (String × Option String)) : List Attribute :=
  fields.filterMap (fun f => f.2.map (fun value => ⟨f.1, value⟩))

theorem fieldAttributes_cons (f : String × Option String) (fields : List (String × Option String)) :
    fieldAttributes (f :: fields) =
      (f.2.map (fun value => ⟨f.1, value⟩)).toList ++ fieldAttributes fields := by
  rw [fieldAttributes, List.filterMap_cons]
  cases f.2 <;> rfl

theorem keys_fieldAttributes (fields : List (String × Option String)) :
    ((fieldAttributes fields).map Attribute.key).Sublist (fields.map Prod.fst) := by
  induction fields with
  | nil => exact List.Sublist.slnil
  | cons f fields ih =>
    rw [fieldAttributes_cons]
    cases f.2 with
    | none => exact ih.cons f.1
    | some value => exact ih.cons_cons f.1

theorem valueIn_fieldAttributes (fields : List (String × Option String))
    (hdistinct : (fields.map Prod.fst).Nodup) :
    ∀ f ∈ fields, valueIn f.1 (fieldAttributes fields) = f.2 := by
  induction fields with
  | nil => simp
  | cons g fields ih =>
    rw [List.map_cons, List.nodup_cons] at hdistinct
    have hnone : valueIn g.1 (fieldAttributes fields) = none := by
      refine valueIn_eq_none g.1 _ fun hm => ?_
      exact hdistinct.1 ((keys_fieldAttributes fields).subset hm)
    intro f hf
    rw [fieldAttributes_cons]
    rcases List.mem_cons.mp hf with rfl | hf
    · obtain ⟨key, value?⟩ := f
      cases value? with
      | none => exact hnone
      | some value =>
        have hvalue : (⟨key, value⟩ : Attribute).valueFor key = some value := if_pos rfl
        change (valueIn key (fieldAttributes fields)).or _ = _
        rw [hnone, hvalue, Option.none_or]
    · have hne : g.1 ≠ f.1 := fun he => hdistinct.1 (he ▸ List.mem_map_of_mem hf)
      have htail := ih hdistinct.2 f hf
      cases g.2 with
      | none => exact htail
      | some value =>
        have hother : (⟨g.1, value⟩ : Attribute).valueFor f.1 = none := if_neg hne
        change (valueIn f.1 (fieldAttributes fields)).or _ = _
        rw [htail, hother, Option.or_none]

theorem AttributeText.exists_of_fields (fields : List (String × Option String))
    (hkeys : ∀ f ∈ fields, IsName f.1) (hplain : ∀ f ∈ fields, ∀ v ∈ f.2, Plain v) :
    ∃ as : List AttributeText, as.map AttributeText.attribute = fieldAttributes fields := by
  induction fields with
  | nil => exact ⟨[], rfl⟩
  | cons f fields ih =>
    obtain ⟨as, has⟩ := ih (fun g hg => hkeys g (List.mem_cons_of_mem f hg))
      (fun g hg => hplain g (List.mem_cons_of_mem f hg))
    have hkey := hkeys f List.mem_cons_self
    have hvalue := hplain f List.mem_cons_self
    rw [fieldAttributes_cons]
    cases h : f.2 with
    | none => exact ⟨as, has⟩
    | some value =>
      refine ⟨.plain (.ofString f.1 hkey) value (hvalue value h) :: as, ?_⟩
      simp [has, AttributeText.attribute, AttributeText.plain, Name.ofString]

/-- There is a tag for every list of optional fields with distinct keys and plain values. -/
theorem TagText.exists_of_fields {element : String} (hname : IsName element)
    (fields : List (String × Option String)) (hkeys : ∀ f ∈ fields, IsName f.1)
    (hdistinct : (fields.map Prod.fst).Nodup) (hplain : ∀ f ∈ fields, ∀ v ∈ f.2, Plain v) :
    ∃ t : TagText, t.element = element ∧ ∀ f ∈ fields, t.value? f.1 = f.2 := by
  obtain ⟨as, has⟩ := AttributeText.exists_of_fields fields hkeys hplain
  have hnodup : (as.map (fun a => a.key.chars)).Nodup := by
    have hkeys : (as.map (fun a => a.key.chars)).map String.ofList =
        (fieldAttributes fields).map Attribute.key := by
      rw [← has]
      simp [AttributeText.attribute]
    have hwritten := hdistinct.sublist (keys_fieldAttributes fields)
    rw [← hkeys] at hwritten
    exact List.Pairwise.of_map String.ofList
      (fun a b hne he => hne (congrArg String.ofList he)) hwritten
  refine ⟨⟨.ofString element hname, as, hnodup, .none⟩, ?_, fun f hf => ?_⟩
  · simp [TagText.element, Name.ofString]
  · change valueIn f.1 (as.map AttributeText.attribute) = f.2
    rw [has]
    exact valueIn_fieldAttributes fields hdistinct f hf

/-- Elements `enum` and `bit` for some names, before the other parts of a type. -/
theorem Content.exists_writesTypeParts {values bits : List String} {members : List LeafType}
    (hvalues : ∀ v ∈ values, Plain v) (hbits : ∀ b ∈ bits, Plain b)
    (hmembers : ∃ c : Content, c.WritesTypeParts [] [] members) :
    ∃ c : Content, c.WritesTypeParts values bits members := by
  induction values with
  | cons v vs ih =>
    obtain ⟨c, hc⟩ := ih (fun v' h => hvalues v' (List.mem_cons_of_mem v h))
    have hv := hvalues v List.mem_cons_self
    refine ⟨.next .none (.empty (.plain "enum" "name" v (by decide) (by decide) hv)) c, ?_⟩
    simp only [WritesTypeParts, Node.isAmong, Node.tag?, Option.any_some, TagText.element_plain]
    exact ⟨v, vs, rfl, Node.value?_plain _ _ hv, hc⟩
  | nil =>
    induction bits with
    | cons b bs ih =>
      obtain ⟨c, hc⟩ := ih (fun b' h => hbits b' (List.mem_cons_of_mem b h))
      have hb := hbits b List.mem_cons_self
      refine ⟨.next .none (.empty (.plain "bit" "name" b (by decide) (by decide) hb)) c, ?_⟩
      simp only [WritesTypeParts, Node.isAmong, Node.tag?, Option.any_some, TagText.element_plain]
      exact ⟨b, bs, rfl, Node.value?_plain _ _ hb, hc⟩
    | nil => exact hmembers

mutual

theorem Node.exists_writesType : ∀ (y : LeafType), y.Expressible →
    ∃ n : Node, n.isAmong ["type"] = true ∧ n.WritesType y
  | ⟨name, kind, values, bits, members, path⟩, h => by
    rw [LeafType.Expressible] at h
    obtain ⟨hname, hkind, -, hvalues, hbits, hmembers, hpath⟩ := h
    obtain ⟨c, hc⟩ := Content.exists_writesTypeParts hvalues hbits
      (Content.exists_writesMembers members hmembers)
    have hword : IsName "type" := by decide
    obtain ⟨t, ht, hfields⟩ := TagText.exists_of_fields hword
      [("kind", some kind.keyword), ("name", some name), ("path", path)]
      (by simpa using by decide) (by simp) (by simpa using ⟨hkind, hname, hpath⟩)
    refine ⟨.element t c .none, by simp [Node.isAmong, Node.tag?, ht], ?_⟩
    refine ⟨⟨ht, hfields ("kind", _) (by simp), Or.inl (hfields ("name", _) (by simp)),
      hfields ("path", _) (by simp)⟩, hc⟩

theorem Content.exists_writesMembers : ∀ (ts : List LeafType), LeafType.AllExpressible ts →
    ∃ c : Content, c.WritesTypeParts [] [] ts
  | [], _ => ⟨.last .none, rfl, rfl, rfl⟩
  | t :: ts, h => by
    rw [LeafType.AllExpressible] at h
    obtain ⟨n, ha, hn⟩ := Node.exists_writesType t h.1
    obtain ⟨c, hc⟩ := Content.exists_writesMembers ts h.2
    refine ⟨.next .none n c, ?_⟩
    rw [Content.WritesTypeParts, if_pos ha]
    exact ⟨t, ts, rfl, hn, hc⟩

end

theorem TagText.exists_writesEntry {e : Entry} {element : String} (he : element ∈ e.elements)
    (hname : Plain e.name) (hkey : ∀ k ∈ e.key, Plain k)
    (hdescription : ∀ d ∈ e.description, Plain d) : ∃ t : TagText, t.WritesEntry e := by
  have hlegal : IsName element := by
    have hwords : ∀ s ∈ entryElements, IsName s := by decide
    exact hwords element ((Entry.isSome_ofElement? element).mp (by
      rw [Entry.ofElement?_of_mem he]
      rfl))
  have hflag : ∀ on : Bool, Plain (if on then "true" else "false") := by
    intro on
    cases on <;> decide
  obtain ⟨t, ht, hfields⟩ := TagText.exists_of_fields hlegal
    [("name", some e.name), ("mandatory", some (if e.mandatory then "true" else "false")),
      ("config-only", some (if e.inputOnly then "true" else "false")), ("key", e.key),
      ("description", e.description)]
    (by simpa using by decide) (by simp)
    (by simpa using ⟨hname, hflag _, hflag _, hkey, hdescription⟩)
  exact ⟨t, ht ▸ he, hfields ("name", _) (by simp), Or.inl (hfields ("mandatory", _) (by simp)),
    Or.inl (hfields ("config-only", _) (by simp)), hfields ("key", _) (by simp),
    hfields ("description", _) (by simp)⟩

end Xml

theorem Entry.exists_element {e : Entry} (h : e.Expressible) :
    ∃ element, element ∈ e.elements := by
  cases e with
  | mk name kind mandatory inputOnly operation repeated key description leafType children =>
    rw [Expressible] at h
    obtain ⟨-, hoperation, hrepeated, -⟩ := h
    cases operation with
    | true =>
      cases hoperation rfl
      cases repeated with
      | true => exact absurd (hrepeated rfl) (by decide)
      | false => exact ⟨"rpc", by simp [elements]⟩
    | false =>
      cases repeated with
      | true =>
        cases hrepeated rfl
        exact ⟨"leaf-list", by simp [elements]⟩
      | false => cases kind <;> exact ⟨_, List.mem_cons_self⟩

namespace Xml

mutual

theorem Node.exists_writesEntry : ∀ (e : Entry), e.Expressible →
    ∃ n : Node, n.isAmong entryElements = true ∧ n.WritesEntry e
  | ⟨name, kind, mandatory, inputOnly, operation, repeated, key, description, leafType, children⟩,
      h => by
    obtain ⟨element, helement⟩ := Entry.exists_element h
    rw [Entry.Expressible] at h
    obtain ⟨hname, -, -, hkey, hdescription, htype, -, hchildren⟩ := h
    obtain ⟨c, hc⟩ := Content.exists_writesEntries children hchildren
    obtain ⟨t, ht⟩ := TagText.exists_writesEntry helement hname hkey hdescription
    have hamong : t.element ∈ entryElements := by
      rw [← Entry.isSome_ofElement?, Entry.ofElement?_of_mem ht.element]
      rfl
    have hparts : ∃ c : Content, c.WritesEntryParts children leafType := by
      cases leafType with
      | none => exact ⟨c, hc⟩
      | some y =>
        obtain ⟨n, ha, hn⟩ := Node.exists_writesType y (htype y rfl)
        refine ⟨.next .none n c, ?_⟩
        rw [Content.WritesEntryParts, if_pos ha]
        exact ⟨y, rfl, hn, hc⟩
    obtain ⟨c, hc⟩ := hparts
    refine ⟨.element t c .none, ?_, ht, children, List.Perm.refl _, hc⟩
    exact (Node.isAmong_iff _ _).mpr ⟨t, rfl, hamong⟩

theorem Content.exists_writesEntries : ∀ (es : List Entry), Entry.AllExpressible es →
    ∃ c : Content, c.WritesEntryParts es none
  | [], _ => ⟨.last .none, rfl, rfl⟩
  | e :: es, h => by
    rw [Entry.AllExpressible] at h
    obtain ⟨n, ha, hn⟩ := Node.exists_writesEntry e h.1
    obtain ⟨c, hc⟩ := Content.exists_writesEntries es h.2
    refine ⟨.next .none n c, ?_⟩
    simp only [Content.WritesEntryParts, (Node.isAmong_entryElements ha).1, ha]
    exact ⟨e, es, rfl, hn, hc⟩

end

theorem Content.exists_writesModuleParts {es : List Entry} {dates : List String}
    (hes : ∀ e ∈ es, e.Expressible) (hdates : ∀ d ∈ dates, Plain d) :
    ∃ c : Content, c.WritesModuleParts es dates := by
  induction dates with
  | cons d ds ih =>
    obtain ⟨c, hc⟩ := ih (fun d' h => hdates d' (List.mem_cons_of_mem d h))
    have hd := hdates d List.mem_cons_self
    refine ⟨.next .none (.empty (.plain "revision" "date" d (by decide) (by decide) hd)) c, ?_⟩
    simp only [WritesModuleParts, Node.isAmong, Node.tag?, Option.any_some, TagText.element_plain]
    exact ⟨d, ds, rfl, Or.inl (Node.value?_plain _ _ hd), hc⟩
  | nil =>
    induction es with
    | cons e es ih =>
      obtain ⟨c, hc⟩ := ih (fun e' h => hes e' (List.mem_cons_of_mem e h))
      obtain ⟨n, ha, hn⟩ := Node.exists_writesEntry e (hes e List.mem_cons_self)
      refine ⟨.next .none n c, ?_⟩
      simp only [WritesModuleParts, (Node.isAmong_entryElements ha).2, ha]
      exact ⟨e, es, rfl, hn, hc⟩
    | nil => exact ⟨.last .none, rfl, rfl⟩

theorem Document.exists_writes {m : Module} (h : m.Expressible) : ∃ d : Document, d.Writes m := by
  have hentries := (Entry.allExpressible_iff m.entries).mp h.entries
  obtain ⟨c, hc⟩ := Content.exists_writesModuleParts hentries h.revisions
  have hword : IsName "module" := by decide
  obtain ⟨t, ht, hfields⟩ := TagText.exists_of_fields hword
    [("name", some m.name), ("namespace", m.uri), ("prefix", m.shortName),
      ("belongs-to", m.parent), ("description", m.description)]
    (by simpa using by decide) (by simp)
    (by simpa using ⟨h.name, h.uri, h.shortName, h.parent, h.description⟩)
  have htag : t.WritesModule m :=
    ⟨Or.inl ht, hfields ("name", _) (by simp), hfields ("namespace", _) (by simp),
      hfields ("prefix", _) (by simp), hfields ("belongs-to", _) (by simp),
      hfields ("description", _) (by simp)⟩
  have hunmarked : (Content.next .none (.element t c .none) (.last .none)).chars.head? ≠
      some '\uFEFF' := by
    simp [Content.chars, Node.chars, CharData.none]
  refine ⟨⟨false, .next .none (.element t c .none) (.last .none), hunmarked⟩,
    .element t c .none, ?_, t, rfl, htag, m.entries, List.Perm.refl _, hc⟩
  simp [Content.firstModule?, Node.firstModule?, ht, moduleElements]

end Xml

/-- Reading undoes writing. A module that can be expressed has a document, and is what the reader
makes of every document that writes it. -/
theorem reading_undoes_writing (m : Module) (h : m.Expressible) :
    (∃ d : Document, d.Writes m) ∧
      ∀ d : Document, d.Writes m → Module.ofDocument d.text = .ok m :=
  ⟨Document.exists_writes h, fun _ hw => Document.ofDocument_of_writes hw h⟩

def leafModule : Module :=
  { Module.ofName "m" with
    revisions := ["2020-01-01"]
    entries := [Entry.leaf "a" (LeafType.ofKind .string)] }

/-- A document of `leafModule` with an element that means nothing to a module. -/
def leafDocument : Document where
  marked := false
  content :=
    .next .none
      (.element (.plain "module" "name" "m" (by decide) (by decide) (by decide))
        (.next .none
          (.element (.plain "extension" "name" "x" (by decide) (by decide) (by decide))
            (.next .none
              (.empty (.plain "leaf" "name" "a" (by decide) (by decide) (by decide)))
              (.last .none))
            .none)
          (.next .none
            (.element (.plain "leaf" "name" "a" (by decide) (by decide) (by decide))
              (.next .none
                (.empty (.plain "type" "kind" "string" (by decide) (by decide) (by decide)))
                (.last .none))
              .none)
            (.next .none
              (.element ⟨.ofString "revision" (by decide), [], by simp, .none⟩
                (.last ⟨" 2020-01-01 ".toList, List.all_eq_true.mp rfl⟩) .none)
              (.last .none))))
        .none)
      (.last .none)
  unmarked := by decide

theorem leafModule_expressible : leafModule.Expressible where
  name := by decide
  uri := by simp [leafModule, Module.ofName]
  shortName := by simp [leafModule, Module.ofName]
  parent := by simp [leafModule, Module.ofName]
  revisions := by
    simp only [leafModule, List.mem_singleton, forall_eq]
    decide
  description := by simp [leafModule, Module.ofName]
  sorted := List.pairwise_singleton _ _
  entries := by
    simp [leafModule, Module.ofName, Entry.leaf, Entry.ofKind, Entry.Expressible,
      Entry.AllExpressible, Keyed.sorted_nil, LeafType.ofKind, BaseKind.keyword,
      LeafType.Expressible, LeafType.AllExpressible]
    decide

theorem leafDocument_writes : leafDocument.Writes leafModule := by
  refine ⟨_, rfl, _, rfl, ⟨Or.inl rfl, rfl, rfl, rfl, rfl, rfl⟩, leafModule.entries,
    List.Perm.refl _, ?_⟩
  refine ⟨_, _, rfl, ?leaf, ?revision⟩
  case leaf =>
    exact ⟨⟨by decide, rfl, Or.inr ⟨rfl, rfl⟩, Or.inr ⟨rfl, rfl⟩, rfl, rfl⟩, [], List.Perm.refl _,
      ⟨_, rfl, ⟨⟨rfl, rfl, Or.inr ⟨rfl, rfl⟩, rfl⟩, rfl, rfl, rfl⟩, rfl, rfl⟩⟩
  case revision =>
    exact ⟨_, _, rfl, Or.inr ⟨rfl, by decide, _, rfl, by decide +kernel⟩, rfl, rfl⟩

theorem reading_undoes_writing_leafModule :
    leafModule.Expressible ∧ leafDocument.Writes leafModule ∧
      leafDocument.text = "<module name=\"m\">" ++
        "<extension name=\"x\"><leaf name=\"a\"/></extension>" ++
        "<leaf name=\"a\"><type kind=\"string\"/></leaf>" ++
        "<revision> 2020-01-01 </revision></module>" ∧
      Module.ofDocument leafDocument.text = .ok leafModule :=
  ⟨leafModule_expressible, leafDocument_writes, by decide +kernel,
    (reading_undoes_writing leafModule leafModule_expressible).2 leafDocument leafDocument_writes⟩

end YangScript
