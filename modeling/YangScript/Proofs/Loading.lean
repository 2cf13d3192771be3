import YangScript.Proofs.Machine

/-!
# What the machine makes of types, entries and modules

At each kind of place, the events of some content either end in the first violation of that
content, or leave the machine with what the content stands for. For entries the names of earlier
siblings are those of the children that the open entry already has.
-/

set_option autoImplicit false

namespace YangScript

open Xml Text

namespace State

theorem attachMember_tag (t : LeafType) {n : Node} {tag : TagText} (h : n.tag? = some tag) :
    attachMember t tag.tag = refuse n.memberViolations (n.memberOf t) := by
  rw [attachMember, tag.tag_name, Node.memberViolations, Node.memberOf, Node.isAmong_of_tag? h, h]
  split
  · rename_i he
    rw [memberName_tag]
    simp only [he, List.contains_cons, Option.map_some, Option.getD_some, TagText.memberOf]
    exact refuse_bind_ok fun _ => rfl
  · rename_i he
    rw [memberName_tag]
    simp only [he, Option.map_some, Option.getD_some, TagText.memberOf]
    exact refuse_bind_ok fun _ => rfl
  · rename_i henum hbit
    have he : ¬ tag.element = "enum" := henum
    have hb : ¬ tag.element = "bit" := hbit
    simp [he, hb, TagText.memberOf, refuse]

/-- What the content of a type adds to it, and the first thing that is wrong with it. -/
theorem advance_typeContent (c : Xml.Content) (m : Module) (t : LeafType) (outer : List LeafType)
    (owner : OpenEntry) (path : List OpenEntry) :
    advance c.events (inside m (.type t outer owner path) 0) =
      refuse c.typeViolations (inside m (.type (c.typeFrom t) outer owner path) 0) := by
  induction c using Content.induction generalizing t outer with
  | last text => exact advance_text text _ (fun _ => rfl)
  | next text node rest ihnode ihrest =>
    rw [advance_next text node rest _ (fun _ => rfl), Content.typeViolations, Content.typeFrom]
    cases ht : node.tag? with
    | none =>
      have ha : node.isAmong ["type"] = false := by simp [Node.isAmong, ht]
      have hv : node.memberViolations = [] := by simp [Node.memberViolations, Node.isAmong, ht]
      have hm : node.memberOf t = t := by simp [Node.memberOf, ht]
      rw [advance_aside ht rfl]
      simp only [ha, hv, hm, Bool.false_eq_true, if_false, List.nil_append]
      exact ihrest t outer
    | some tag =>
      by_cases htype : tag.element = "type"
      · have ha : node.isAmong ["type"] = true := by simp [Node.isAmong_of_tag? ht, htype]
        simp only [ha, if_true]
        have hstart : step (inside m (.type t outer owner path) 0) (.start tag.tag) =
            refuse (tag.missing "kind") (inside m (.type tag.type (t :: outer) owner path) 0) := by
          simp only [step, stepPlace, stepType, tag.tag_name, htype, if_true]
          rw [LeafType.ofTag_tag]
          exact refuse_bind_ok fun _ => rfl
        have hnode : advance node.events (inside m (.type t outer owner path) 0) =
            refuse node.typeViolations
              (inside m (.type { t with members := t.members ++ [node.type] } outer owner path)
                0) := by
          rw [advance_node ht, hstart, node.typeViolations_eq ht, node.type_eq ht]
          refine refuse_bind fun _ => ?_
          rw [ihnode]
          exact refuse_bind_ok fun _ => rfl
        rw [hnode]
        exact refuse_bind fun _ => ihrest _ outer
      · have ha : node.isAmong ["type"] = false := by simp [Node.isAmong_of_tag? ht, htype]
        simp only [ha, Bool.false_eq_true, if_false]
        have hstart : step (inside m (.type t outer owner path) 0) (.start tag.tag) =
            refuse node.memberViolations
              (inside m (.type (node.memberOf t) outer owner path) 1) := by
          simp only [step, stepPlace, stepType, tag.tag_name, htype, if_false]
          rw [attachMember_tag t ht]
          exact refuse_bind_ok fun _ => rfl
        rw [advance_skip ht hstart]
        exact refuse_bind fun _ => ihrest _ outer

theorem isAmong_of_aside {n : Node} (h : n.tag? = none) (names : List String) :
    n.isAmong names = false := by
  simp [Node.isAmong, h]

end State

theorem Entry.isSome_child?_insert (e child : Entry) (name : String) :
    ((e.insert child).child? name).isSome = true ↔
      name = child.name ∨ (e.child? name).isSome = true := by
  by_cases hn : name = child.name
  · simp [hn, Entry.child?_insert_self]
  · simp [hn, Entry.child?_insert_ne e child name hn]

theorem Module.isSome_child?_insert (m : Module) (child : Entry) (name : String) :
    ((m.insert child).child? name).isSome = true ↔
      name = child.name ∨ (m.child? name).isSome = true := by
  by_cases hn : name = child.name
  · simp [hn, Module.child?_insert_self]
  · simp [hn, Module.child?_insert_ne m child name hn]

/-- The elements of entries are those that stand for a bare entry. -/
theorem Entry.isSome_ofElement? (name : String) :
    (Entry.ofElement? name).isSome = true ↔ name ∈ entryElements := by
  unfold Entry.ofElement?
  split <;> simp_all [entryElements]

/-- A bare entry has no children and no type. -/
theorem Entry.bare_of_ofElement? {name : String} {bare : Entry}
    (h : Entry.ofElement? name = some bare) : bare.children = [] ∧ bare.leafType = none := by
  unfold Entry.ofElement? at h
  split at h <;> simp_all <;> rw [← h] <;> exact ⟨rfl, rfl⟩

theorem Xml.TagText.entry_bare (t : TagText) :
    t.entry.children = [] ∧ t.entry.leafType = none ∧ t.entry.name = (t.value? "name").getD "" := by
  cases h : Entry.ofElement? t.element with
  | none =>
    refine ⟨?_, ?_, rfl⟩ <;> rw [TagText.entry, h] <;> rfl
  | some bare =>
    have hb := Entry.bare_of_ofElement? h
    refine ⟨?_, ?_, rfl⟩ <;> rw [TagText.entry, h]
    · exact hb.1
    · exact hb.2

theorem Xml.Content.name_entryFrom (c : Xml.Content) (e : Entry) :
    (c.entryFrom e).name = e.name := by
  induction c using Content.induction generalizing e with
  | last text => rfl
  | next text node rest _ ihrest =>
    rw [Content.entryFrom]
    split
    · exact ihrest _
    · split
      · exact ihrest _
      · exact ihrest _

/-- An entry element without violations has a name. -/
theorem Xml.Node.value?_name {n : Node} {tag : TagText} (h : n.tag? = some tag)
    (hv : n.entryViolations = []) : n.value? "name" = some n.entry.name := by
  rw [n.entryViolations_eq h, List.append_eq_nil_iff, TagText.entryViolations,
    List.append_eq_nil_iff] at hv
  have hname := hv.1.2
  rw [n.value?_of_tag? h, n.entry_eq h, Content.name_entryFrom, tag.entry_bare.2.2]
  cases hk : tag.value? "name" with
  | none => simp [TagText.missing, hk] at hname
  | some name => rfl

namespace State

theorem openAmongEntries_entry (m : Module) (path : List OpenEntry) {tag : TagText}
    (h : tag.element ∈ entryElements) :
    openAmongEntries m path tag.tag =
      refuse tag.entryViolations (inside m (.entries (⟨tag.element, tag.entry⟩ :: path)) 0) := by
  obtain ⟨bare, hb⟩ := Option.isSome_iff_exists.mp ((Entry.isSome_ofElement? _).mpr h)
  unfold openAmongEntries
  rw [tag.tag_name]
  split
  · rename_i he
    rw [he] at h
    exact absurd h (by decide)
  · rename_i he
    rw [he] at h
    exact absurd h (by decide)
  · rw [hb]
    dsimp only
    rw [Entry.ofTag_tag, TagText.entry, hb]
    exact refuse_bind_ok fun _ => rfl

/-- The machine takes some content in an open entry for what it adds to the entry, whose children
so far have the names in `earlier`. -/
def TakesEntryContent (c : Xml.Content) (m : Module) : Prop :=
  ∀ (element : String) (e : Entry) (outer : List OpenEntry) (earlier : List String),
    (∀ name, (e.child? name).isSome = true ↔ name ∈ earlier) →
    advance c.events (inside m (.entries (⟨element, e⟩ :: outer)) 0) =
      refuse (c.entryViolations e.name earlier e.leafType.isSome)
        (inside m (.entries (⟨element, c.entryFrom e⟩ :: outer)) 0)

/-- An entry element is handed to what is open around it if its content is taken. -/
theorem advance_entryElement {n : Node} {tag : TagText} (ht : n.tag? = some tag)
    (h : tag.element ∈ entryElements) {m : Module} (path : List OpenEntry)
    (htakes : TakesEntryContent n.content m) :
    advance n.events (inside m (.entries path) 0) =
      refuse n.entryViolations n.entry >>= attachEntry m path := by
  have hcontent := htakes tag.element tag.entry path []
    (fun name => by simp [Entry.child?, Keyed.find?, tag.entry_bare.1])
  rw [tag.entry_bare.2.1, Option.isSome_none] at hcontent
  have hstart : step (inside m (.entries path) 0) (.start tag.tag) =
      refuse tag.entryViolations (inside m (.entries (⟨tag.element, tag.entry⟩ :: path)) 0) :=
    openAmongEntries_entry m path h
  rw [advance_node ht, hstart, n.entryViolations_eq ht, n.entry_eq ht, ← tag.entry_bare.2.2]
  cases tag.entryViolations with
  | cons v vs => rfl
  | nil =>
    change (advance n.content.events _ >>= _) = _
    rw [hcontent, List.nil_append]
    cases n.content.entryViolations tag.entry.name [] false <;> rfl

theorem attachEntry_among (m : Module) (o : OpenEntry) (outer : List OpenEntry) {n : Node}
    (hname : n.value? "name" = some n.entry.name) {earlier : List String}
    (hearlier : ∀ name, (o.entry.child? name).isSome = true ↔ name ∈ earlier) :
    attachEntry m (o :: outer) n.entry =
      refuse (n.nameViolations o.entry.name earlier)
        (inside m (.entries (⟨o.tag, o.entry.insert n.entry⟩ :: outer)) 0) := by
  have hiff := hearlier n.entry.name
  rw [attachEntry, Node.nameViolations, hname]
  by_cases hm : n.entry.name ∈ earlier
  · simp [hiff.mpr hm, hm, refuse]
  · simp [mt hiff.mp hm, hm, refuse]

theorem attachType_typed (m : Module) (o : OpenEntry) (outer : List OpenEntry) (t : LeafType) :
    attachType m o outer t =
      refuse (if o.entry.leafType.isSome then [.duplicateType o.entry.name] else [])
        (inside m (.entries (⟨o.tag, { o.entry with leafType := some t }⟩ :: outer)) 0) := by
  rw [attachType]
  cases o.entry.leafType <;> rfl

theorem advance_typeElement {n : Node} {tag : TagText} (ht : n.tag? = some tag)
    (h : tag.element = "type") (m : Module) (o : OpenEntry) (outer : List OpenEntry) :
    advance n.events (inside m (.entries (o :: outer)) 0) =
      refuse n.typeViolations n.type >>= attachType m o outer := by
  have hstart : step (inside m (.entries (o :: outer)) 0) (.start tag.tag) =
      refuse (tag.missing "kind") (inside m (.type tag.type [] o outer) 0) := by
    simp only [step, stepPlace, stepEntries, openAmongEntries, tag.tag_name, h]
    rw [LeafType.ofTag_tag]
    exact refuse_bind_ok fun _ => rfl
  rw [advance_node ht, hstart, n.typeViolations_eq ht, n.type_eq ht]
  cases tag.missing "kind" with
  | cons v vs => rfl
  | nil =>
    change (advance n.content.events _ >>= _) = _
    rw [advance_typeContent, List.nil_append]
    cases n.content.typeViolations <;> rfl

/-- An element that means nothing among the entries is skipped. -/
theorem openAmongEntries_skip (m : Module) {path : List OpenEntry} {tag : TagText}
    (hrevision : path = [] → tag.element ≠ "revision") (htype : path ≠ [] → tag.element ≠ "type")
    (hentry : tag.element ∉ entryElements) :
    openAmongEntries m path tag.tag = .ok (inside m (.entries path) 1) := by
  have hnone : Entry.ofElement? tag.element = none := by
    rw [← Option.not_isSome_iff_eq_none, Entry.isSome_ofElement?]
    exact hentry
  unfold openAmongEntries
  rw [tag.tag_name]
  split
  · rename_i he
    exact absurd he (hrevision rfl)
  · rename_i he
    exact absurd he (htype (by simp))
  · rw [hnone]

/-- What the content of an open entry adds to it, and the first thing that is wrong with it. -/
theorem advance_entryContent (c : Xml.Content) (m : Module) : TakesEntryContent c m := by
  induction c using Content.induction with
  | last text => exact fun element e outer earlier _ => advance_text text _ (fun _ => rfl)
  | next text node rest ihnode ihrest =>
    intro element e outer earlier hearlier
    rw [advance_next text node rest _ (fun _ => rfl), Content.entryViolations, Content.entryFrom]
    cases ht : node.tag? with
    | none =>
      rw [advance_aside ht rfl]
      simp only [isAmong_of_aside ht, Bool.false_eq_true, if_false]
      exact ihrest element e outer earlier hearlier
    | some tag =>
      by_cases htype : tag.element = "type"
      · have ha : node.isAmong ["type"] = true := by simp [Node.isAmong_of_tag? ht, htype]
        simp only [ha, if_true]
        rw [advance_typeElement ht htype, bind_assoc, List.append_assoc]
        refine refuse_bind fun _ => ?_
        rw [attachType_typed]
        exact refuse_bind fun _ =>
          ihrest element { e with leafType := some node.type } outer earlier hearlier
      · have ha : node.isAmong ["type"] = false := by simp [Node.isAmong_of_tag? ht, htype]
        simp only [ha, Bool.false_eq_true, if_false]
        by_cases hentry : tag.element ∈ entryElements
        · have hb : node.isAmong entryElements = true :=
            (Node.isAmong_iff _ _).mpr ⟨tag, ht, hentry⟩
          simp only [hb, if_true]
          rw [advance_entryElement ht hentry _ ihnode, bind_assoc, List.append_assoc]
          refine refuse_bind fun hv => ?_
          have hname := node.value?_name ht hv
          rw [attachEntry_among m ⟨element, e⟩ outer hname hearlier, hname]
          refine refuse_bind fun _ => ihrest element (e.insert node.entry) outer _ fun name => ?_
          rw [Entry.isSome_child?_insert, hearlier]
          simp
        · have hb : node.isAmong entryElements = false := by
            simpa [Node.isAmong_of_tag? ht] using hentry
          simp only [hb, Bool.false_eq_true, if_false]
          have hskip : step (inside m (.entries (⟨element, e⟩ :: outer)) 0) (.start tag.tag) =
              refuse [] (inside m (.entries (⟨element, e⟩ :: outer)) 1) :=
            openAmongEntries_skip m (by simp) (fun _ => htype) hentry
          rw [advance_skip ht hskip]
          exact ihrest element e outer earlier hearlier

end State

end YangScript
