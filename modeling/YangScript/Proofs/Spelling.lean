import YangScript.Proofs.Expression
import YangScript.Proofs.References

/-!
# Documents written with references

A document is read with its texts as they stand between the quotes, whatever references they hold.
What it means is the module in which every text is replaced by the text that is meant. The two are
compared by their extent, which is the length of all texts together: the text that is meant is never
longer, and shorter where it is written with a reference, so that they are one module only where
nothing is. Sorting entries by the names that are meant may lose some, and never adds to the extent.
-/

set_option autoImplicit false

namespace YangScript

open Xml Text

/-! ## Texts and what they mean -/

namespace LeafType

mutual

/-- The texts of a type that a document gives as they are. -/
def texts : LeafType → List String
  | ⟨name, kind, values, bits, members, path⟩ =>
    name :: kind.keyword :: (values ++ bits ++ textsAll members ++ path.toList)

def textsAll : List LeafType → List String
  | [] => []
  | t :: ts => texts t ++ textsAll ts

end

mutual

/-- The type with every text replaced by the one that is meant. -/
def meant (meaning : String → String) : LeafType → LeafType
  | ⟨name, kind, values, bits, members, path⟩ =>
    ⟨meaning name, .ofKeyword (meaning kind.keyword), values.map meaning, bits.map meaning,
      meantAll meaning members, path.map meaning⟩

def meantAll (meaning : String → String) : List LeafType → List LeafType
  | [] => []
  | t :: ts => meant meaning t :: meantAll meaning ts

end

end LeafType

namespace Entry

mutual

def texts : Entry → List String
  | ⟨name, _, _, _, _, _, key, description, leafType, children⟩ =>
    name :: (key.toList ++ description.toList ++ leafType.toList.flatMap LeafType.texts ++
      textsAll children)

def textsAll : List Entry → List String
  | [] => []
  | e :: es => texts e ++ textsAll es

end

mutual

/-- The entry with every text replaced. Its children are put in the order of the names that are
meant. -/
def meant (meaning : String → String) : Entry → Entry
  | ⟨name, kind, mandatory, inputOnly, operation, repeated, key, description, leafType,
      children⟩ =>
    ⟨meaning name, kind, mandatory, inputOnly, operation, repeated, key.map meaning,
      description.map meaning, leafType.map (LeafType.meant meaning),
      merge (meantAll meaning children) []⟩

def meantAll (meaning : String → String) : List Entry → List Entry
  | [] => []
  | e :: es => meant meaning e :: meantAll meaning es

end

end Entry

namespace Module

def texts (m : Module) : List String :=
  m.name :: (m.uri.toList ++ m.shortName.toList ++ m.parent.toList ++ m.description.toList ++
    Entry.textsAll m.entries)

def meant (meaning : String → String) (m : Module) : Module :=
  { name := meaning m.name
    uri := m.uri.map meaning
    shortName := m.shortName.map meaning
    parent := m.parent.map meaning
    revisions := m.revisions
    description := m.description.map meaning
    entries := Entry.merge (Entry.meantAll meaning m.entries) [] }

end Module

/-! ## Where every text means itself -/

section

variable {meaning : String → String}

theorem map_eq_self {ws : List String} (h : ∀ w ∈ ws, meaning w = w) : ws.map meaning = ws := by
  rw [List.map_congr_left h, List.map_id']

theorem option_map_eq_self {w? : Option String} (h : ∀ w ∈ w?.toList, meaning w = w) :
    w?.map meaning = w? := by
  cases w? with
  | none => rfl
  | some w => rw [Option.map_some, h w List.mem_cons_self]

namespace LeafType

mutual

theorem meant_eq_self : (t : LeafType) → t.Legal → (∀ w ∈ t.texts, meaning w = w) →
    t.meant meaning = t
  | ⟨name, kind, values, bits, members, path⟩, hlegal, h => by
    rw [Legal] at hlegal
    simp only [texts, List.forall_mem_cons, List.forall_mem_append] at h
    obtain ⟨hname, hkind, ⟨⟨hvalues, hbits⟩, hmembers⟩, hpath⟩ := h
    rw [meant, hname, hkind, BaseKind.ofKeyword_keyword_of_legal hlegal.1, map_eq_self hvalues,
      map_eq_self hbits, meantAll_eq_self members hlegal.2 hmembers, option_map_eq_self hpath]

theorem meantAll_eq_self : (ts : List LeafType) → AllLegal ts →
    (∀ w ∈ textsAll ts, meaning w = w) → meantAll meaning ts = ts
  | [], _, _ => rfl
  | t :: ts, hlegal, h => by
    rw [textsAll, List.forall_mem_append] at h
    rw [meantAll, meant_eq_self t hlegal.1 h.1, meantAll_eq_self ts hlegal.2 h.2]

end

end LeafType

namespace Entry

theorem merge_nil_of_sorted {es : List Entry} (h : Keyed.Sorted Entry.name es) : merge es [] = es :=
  Keyed.foldl_insert_of_perm h (List.Perm.refl es)

mutual

theorem meant_eq_self : (e : Entry) → e.Legal → (∀ w ∈ e.texts, meaning w = w) →
    e.meant meaning = e
  | ⟨name, kind, mandatory, inputOnly, operation, repeated, key, description, leafType,
      children⟩, hlegal, h => by
    rw [Legal] at hlegal
    obtain ⟨htypes, hsorted, hchildren⟩ := hlegal
    simp only [texts, List.forall_mem_cons, List.forall_mem_append] at h
    obtain ⟨hname, ⟨⟨hkey, hdescription⟩, htype⟩, hbelow⟩ := h
    have hself : leafType.map (LeafType.meant meaning) = leafType := by
      cases leafType with
      | none => rfl
      | some t =>
        rw [Option.map_some, t.meant_eq_self (htypes t rfl) (by simpa using htype)]
    rw [meant, hname, option_map_eq_self hkey, option_map_eq_self hdescription, hself,
      meantAll_eq_self children hchildren hbelow, merge_nil_of_sorted hsorted]

theorem meantAll_eq_self : (es : List Entry) → AllLegal es →
    (∀ w ∈ textsAll es, meaning w = w) → meantAll meaning es = es
  | [], _, _ => rfl
  | e :: es, hlegal, h => by
    rw [textsAll, List.forall_mem_append] at h
    rw [meantAll, meant_eq_self e hlegal.1 h.1, meantAll_eq_self es hlegal.2 h.2]

end

end Entry

theorem Module.meant_eq_self {m : Module} (hlegal : m.Legal) (h : ∀ w ∈ m.texts, meaning w = w) :
    m.meant meaning = m := by
  simp only [texts, List.forall_mem_cons, List.forall_mem_append] at h
  obtain ⟨hname, ⟨⟨⟨huri, hshortName⟩, hparent⟩, hdescription⟩, hentries⟩ := h
  rw [meant, hname, option_map_eq_self huri, option_map_eq_self hshortName,
    option_map_eq_self hparent, option_map_eq_self hdescription,
    Entry.meantAll_eq_self m.entries hlegal.entries hentries,
    Entry.merge_nil_of_sorted hlegal.sorted]

end

/-! ## The extent of what is meant -/

/-- The length of some texts together. -/
def extent : List String → Nat
  | [] => 0
  | w :: ws => w.length + extent ws

@[simp] theorem extent_nil : extent [] = 0 := rfl

@[simp] theorem extent_cons (w : String) (ws : List String) :
    extent (w :: ws) = w.length + extent ws :=
  rfl

@[simp] theorem extent_append (ws ws' : List String) :
    extent (ws ++ ws') = extent ws + extent ws' := by
  induction ws with
  | nil => simp
  | cons w ws ih =>
    rw [List.cons_append, extent_cons, extent_cons, ih]
    omega

section

variable (meaning : String → String)

theorem extent_map_le {ws : List String} (h : ∀ w ∈ ws, (meaning w).length ≤ w.length) :
    extent (ws.map meaning) ≤ extent ws := by
  induction ws with
  | nil => exact Nat.le_refl 0
  | cons w ws ih =>
    obtain ⟨hw, hws⟩ := List.forall_mem_cons.mp h
    have hrest := ih hws
    rw [List.map_cons, extent_cons, extent_cons]
    omega

/-- If no text gets longer and all together do not get shorter, no text gets shorter. -/
theorem length_le_of_extent_le {ws : List String} (h : ∀ w ∈ ws, (meaning w).length ≤ w.length)
    (hextent : extent ws ≤ extent (ws.map meaning)) : ∀ w ∈ ws, w.length ≤ (meaning w).length := by
  induction ws with
  | nil => simp
  | cons w ws ih =>
    obtain ⟨hw, hws⟩ := List.forall_mem_cons.mp h
    have hrest := extent_map_le meaning hws
    rw [List.map_cons, extent_cons, extent_cons] at hextent
    rw [List.forall_mem_cons]
    exact ⟨by omega, ih hws (by omega)⟩

namespace LeafType

mutual

theorem texts_meant : (t : LeafType) → (t.meant meaning).texts = t.texts.map meaning
  | ⟨name, kind, values, bits, members, path⟩ => by
    simp only [meant, texts, BaseKind.keyword_ofKeyword, textsAll_meantAll members,
      Option.toList_map, List.map_cons, List.map_append]

theorem textsAll_meantAll : (ts : List LeafType) →
    textsAll (meantAll meaning ts) = (textsAll ts).map meaning
  | [] => rfl
  | t :: ts => by
    rw [meantAll, textsAll, textsAll, texts_meant t, textsAll_meantAll ts, List.map_append]

end

end LeafType

namespace Entry

/-- An entry that takes the place of another leaves that one out. -/
theorem extent_insert_le (e : Entry) (items : List Entry) :
    extent (textsAll (Keyed.insert Entry.name e items)) ≤
      extent e.texts + extent (textsAll items) := by
  induction items with
  | nil => simp [Keyed.insert, textsAll]
  | cons item items ih =>
    rw [Keyed.insert]
    split
    · simp [textsAll]
    · split
      · simp [textsAll]
      · simp only [textsAll, extent_append]
        omega

theorem extent_merge_le (es items : List Entry) :
    extent (textsAll (merge es items)) ≤ extent (textsAll es) + extent (textsAll items) := by
  induction es generalizing items with
  | nil => simp [merge, textsAll]
  | cons e es ih =>
    have hinsert := extent_insert_le e items
    have hrest := ih (Keyed.insert Entry.name e items)
    show extent (textsAll (merge es (Keyed.insert Entry.name e items))) ≤ _
    rw [textsAll, extent_append]
    omega

mutual

theorem extent_meant_le : (e : Entry) →
    extent (e.meant meaning).texts ≤ extent (e.texts.map meaning)
  | ⟨name, kind, mandatory, inputOnly, operation, repeated, key, description, leafType,
      children⟩ => by
    have hmerge := extent_merge_le (meantAll meaning children) []
    have hchildren := extent_meantAll_le children
    have htype : (leafType.toList.map (LeafType.meant meaning)).flatMap LeafType.texts =
        (leafType.toList.flatMap LeafType.texts).map meaning := by
      rw [List.flatMap_map, List.map_flatMap]
      simp only [LeafType.texts_meant]
    simp only [textsAll, extent_nil] at hmerge
    simp only [meant, texts, Option.toList_map, htype, List.map_cons, List.map_append, extent_cons,
      extent_append]
    omega

theorem extent_meantAll_le : (es : List Entry) →
    extent (textsAll (meantAll meaning es)) ≤ extent ((textsAll es).map meaning)
  | [] => Nat.le_refl 0
  | e :: es => by
    have he := extent_meant_le e
    have hes := extent_meantAll_le es
    rw [meantAll, textsAll, textsAll, List.map_append, extent_append, extent_append]
    omega

end

end Entry

theorem Module.extent_meant_le (m : Module) :
    extent (m.meant meaning).texts ≤ extent (m.texts.map meaning) := by
  have hmerge := Entry.extent_merge_le (Entry.meantAll meaning m.entries) []
  have hentries := Entry.extent_meantAll_le meaning m.entries
  simp only [Entry.textsAll, extent_nil] at hmerge
  simp only [meant, texts, Option.toList_map, List.map_cons, List.map_append, extent_cons,
    extent_append]
  omega

/-- A module is what it means if and only if no text of it is written with a reference. -/
theorem Module.meant_eq_self_iff {m : Module} (hlegal : m.Legal)
    (htexts : ∀ w ∈ m.texts, Escapes (meaning w) w) :
    m.meant meaning = m ↔ ∀ w ∈ m.texts, '&' ∉ w.toList := by
  constructor
  · intro hself w hw
    -- sorting may have moved and lost entries, so that only the extents can be compared
    have hextent := m.extent_meant_le meaning
    rw [hself] at hextent
    have hle : ∀ w ∈ m.texts, (meaning w).length ≤ w.length := fun w hw => (htexts w hw).length_le
    exact (htexts w hw).not_mem_of_length (length_le_of_extent_le meaning hle hextent w hw)
  · intro hno
    exact meant_eq_self hlegal fun w hw => ((htexts w hw).eq_iff.mpr (hno w hw)).symm

end

/-! ## What is read -/

/-- No reference is replaced. A document gives the texts as they stand between the quotes, and of
the text of a revision the runs between references, so that it is read as what it means if and only
if nothing in it is written with a reference. -/
theorem texts_stand_as_written (d : Document) (n : Node) (written : Module)
    (meaning : String → String) (dates : List String) (hfirst : d.content.firstModule? = some n)
    (hlegal : written.Legal) (hwritten : n.WritesFrame written)
    (htexts : ∀ w ∈ written.texts, Escapes (meaning w) w)
    (hdates : List.Forall₂ Node.SpellsDate dates (n.content.among ["revision"])) :
    Module.ofDocument d.text =
        refuse ((n.content.among ["revision"]).flatMap Node.revisionViolations)
          { written with revisions := (n.content.among ["revision"]).map Node.date } ∧
      (∀ w ∈ written.texts, w = meaning w ↔ '&' ∉ w.toList) ∧
      List.Forall₂ (fun date r => r.date = date ↔ '&' ∉ r.dateText.toList) dates
        (n.content.among ["revision"]) ∧
      (Module.ofDocument d.text = .ok { written.meant meaning with revisions := dates } ↔
        (∀ w ∈ written.texts, '&' ∉ w.toList) ∧
          ∀ r ∈ n.content.among ["revision"], '&' ∉ r.dateText.toList) := by
  obtain ⟨hviolations, hmodule⟩ := n.module_of_writesFrame hwritten hlegal
  have hread := Module.ofDocument_text d hfirst
  rw [hviolations, hmodule] at hread
  refine ⟨hread, fun w hw => (htexts w hw).eq_iff, hdates.imp fun _ _ h => h.date_eq_iff, ?_⟩
  rw [hread, refuse_eq_ok_iff, ← Node.dates_eq_iff hdates,
    ← Module.meant_eq_self_iff meaning hlegal htexts]
  constructor
  · rintro ⟨-, hsame⟩
    have hframe := congrArg (fun m : Module => { m with revisions := written.revisions }) hsame
    exact ⟨hframe.symm, congrArg Module.revisions hsame⟩
  · rintro ⟨hmeant, hsame⟩
    rw [hmeant, hsame]
    exact ⟨Node.revisionViolations_of_dates_eq hdates hsame, rfl⟩

theorem isQuote_doubleQuote : isQuote '"' = true := rfl

/-- A tag with one attribute, whose value may hold references. -/
def Xml.TagText.quoted (element key value : String) (he : IsName element) (hk : IsName key)
    (hv : '"' ∉ value.toList) : TagText where
  name := .ofString element he
  attributes :=
    [{ lead := .space
       apart := List.cons_ne_nil ' ' []
       key := .ofString key hk
       before := .none
       after := .none
       quote := '"'
       quoting := isQuote_doubleQuote
       value := value.toList
       closed := hv }]
  distinct := List.pairwise_singleton _ _
  trail := .none

/-- A name that is written with a reference is not read as the name that is meant. -/
theorem escaped_name_is_altered :
    Escapes "a<b" "a&lt;b" ∧
      Module.ofDocument "<module name=\"a&lt;b\"/>" = .ok (Module.ofName "a&lt;b") ∧
      (Module.ofName "a&lt;b").name ≠ "a<b" := by
  refine ⟨.plain 'a' rfl (.reference ['l', 't'] '<' rfl (.plain 'b' rfl .nil)), ?_, by decide⟩
  let d : Document :=
    { marked := false
      content := .next .none
        (.empty (.quoted "module" "name" "a&lt;b" (by decide) (by decide) (by decide)))
        (.last .none)
      unmarked := by decide }
  have htext : d.text = "<module name=\"a&lt;b\"/>" := by decide +kernel
  rw [← htext, Module.ofDocument_text d rfl]
  rfl

/-- A module with references in its name and in a value, as they are written. -/
def referringModule : Module :=
  { Module.ofName "a&lt;b" with
    entries := [Entry.leaf "x" { LeafType.ofKind .enumeration with values := ["p&amp;q"] }] }

def referringMeaning (w : String) : String :=
  if w = "a&lt;b" then "a<b" else if w = "p&amp;q" then "p&q" else w

theorem referringModule_legal : referringModule.Legal where
  sorted := List.pairwise_singleton _ _
  entries := by
    simp [referringModule, Module.ofName, Entry.leaf, Entry.ofKind, Entry.Legal, Entry.AllLegal,
      Keyed.sorted_nil, LeafType.ofKind, LeafType.Legal, LeafType.AllLegal]

theorem escapes_referringModule :
    ∀ w ∈ referringModule.texts, Escapes (referringMeaning w) w := by
  have hname : Escapes "a<b" "a&lt;b" :=
    .plain 'a' rfl (.reference ['l', 't'] '<' rfl (.plain 'b' rfl .nil))
  have hvalue : Escapes "p&q" "p&amp;q" :=
    .plain 'p' rfl (.reference ['a', 'm', 'p'] '&' rfl (.plain 'q' rfl .nil))
  have htexts : referringModule.texts = ["a&lt;b", "x", "enumeration", "enumeration", "p&amp;q"] :=
    rfl
  rw [htexts]
  simp only [List.forall_mem_cons]
  refine ⟨hname, .of_plain (by decide), .of_plain (by decide), .of_plain (by decide), hvalue,
    List.forall_mem_nil _⟩

theorem hyphenReference_closed : ∀ c ∈ ['#', '4', '5'], c ≠ ';' ∧ c ≠ '&' ∧ c ≠ '<' := by
  simp

/-- A document of the module, with a reference in a date as well. -/
theorem exists_referringDocument :
    ∃ (d : Document) (n : Node),
      d.text = "<module name=\"a&lt;b\"><revision> 2024&#45;01-01</revision>" ++
        "<leaf name=\"x\"><type kind=\"enumeration\"><enum name=\"p&amp;q\"/></type></leaf>" ++
        "</module>" ∧
      d.content.firstModule? = some n ∧ n.WritesFrame referringModule ∧
      List.Forall₂ Node.SpellsDate ["2024-01-01"] (n.content.among ["revision"]) ∧
      (n.content.among ["revision"]).flatMap Node.revisionViolations = [] ∧
      (n.content.among ["revision"]).map Node.date = ["202401-01"] := by
  let revision : Node :=
    .element ⟨.ofString "revision" (by decide), [], List.nodup_nil, .none⟩
      (.next ⟨" 2024".toList, List.all_eq_true.mp rfl⟩
        (.aside (.reference ['#', '4', '5'] hyphenReference_closed))
        (.last ⟨"01-01".toList, List.all_eq_true.mp rfl⟩))
      .none
  let leaf : Node :=
    .element (.plain "leaf" "name" "x" (by decide) (by decide) (by decide))
      (.next .none
        (.element (.plain "type" "kind" "enumeration" (by decide) (by decide) (by decide))
          (.next .none
            (.empty (.quoted "enum" "name" "p&amp;q" (by decide) (by decide) (by decide)))
            (.last .none))
          .none)
        (.last .none))
      .none
  let n : Node :=
    .element (.quoted "module" "name" "a&lt;b" (by decide) (by decide) (by decide))
      (.next .none revision (.next .none leaf (.last .none))) .none
  have hleaf : leaf.WritesEntry
      (Entry.leaf "x" { LeafType.ofKind .enumeration with values := ["p&amp;q"] }) := by
    refine ⟨⟨by decide, rfl, Or.inr ⟨rfl, rfl⟩, Or.inr ⟨rfl, rfl⟩, rfl, rfl⟩, [], .refl _, ?_⟩
    refine ⟨_, rfl, ⟨⟨rfl, rfl, Or.inr ⟨rfl, rfl⟩, rfl⟩, ?_⟩, rfl, rfl⟩
    exact ⟨_, _, rfl, rfl, rfl, rfl, rfl⟩
  have hdate : revision.SpellsDate "2024-01-01" := by
    refine Or.inr ⟨rfl, by decide, by decide +kernel, [' '], List.all_eq_true.mp rfl, ?_⟩
    exact ⟨['#', '4', '5'], hyphenReference_closed, '-', "2024".toList, "01-01".toList, rfl, rfl, rfl,
      rfl, [], List.forall_mem_nil _, rfl⟩
  refine ⟨⟨false, .next .none n (.last .none), by decide⟩, n, by decide +kernel, rfl, ?_,
    .cons hdate .nil, rfl, by decide +kernel⟩
  exact ⟨_, rfl, ⟨Or.inl rfl, rfl, rfl, rfl, rfl, rfl⟩, _, List.Perm.refl _, .cons hleaf .nil⟩

/-- The document is read with its references, and without the one in the date. -/
theorem texts_stand_as_written_referringModule :
    ∃ d : Document,
      d.text = "<module name=\"a&lt;b\"><revision> 2024&#45;01-01</revision>" ++
        "<leaf name=\"x\"><type kind=\"enumeration\"><enum name=\"p&amp;q\"/></type></leaf>" ++
        "</module>" ∧
      Module.ofDocument d.text = .ok { referringModule with revisions := ["202401-01"] } ∧
      Module.ofDocument d.text ≠
        .ok { referringModule.meant referringMeaning with revisions := ["2024-01-01"] } := by
  obtain ⟨d, n, htext, hfirst, hwrites, hspelled, hvalid, hdates⟩ := exists_referringDocument
  obtain ⟨hread, -, -, hmeant⟩ := texts_stand_as_written d n referringModule referringMeaning
    ["2024-01-01"] hfirst referringModule_legal hwrites escapes_referringModule hspelled
  rw [hvalid, hdates] at hread
  refine ⟨d, htext, hread, fun hsame => ?_⟩
  have hno := (hmeant.mp hsame).1 "a&lt;b" List.mem_cons_self
  exact absurd hno (by decide)

end YangScript
