import YangScript.Document.Element
import YangScript.Proofs.TagReading
import YangScript.Proofs.Violation

/-!
# What the tags and the trees of a document stand for

Every tree stands for a type, an entry or a module, whether or not it breaks the format: what is
missing is empty. The reading of a written tag is then decided by its violations alone. It fails
with the first of them, or gives what the tag stands for.
-/

set_option autoImplicit false

namespace YangScript

open Xml Text

/-- The first violation, or else a value. -/
def refuse {α : Type} (violations : List LoadError) (a : α) : Except LoadError α :=
  match violations with
  | [] => .ok a
  | v :: _ => .error v

variable {α β : Type}

theorem refuse_eq_error_iff (vs : List LoadError) (a : α) (e : LoadError) :
    refuse vs a = .error e ↔ vs.head? = some e := by
  cases vs <;> simp [refuse]

theorem refuse_eq_ok_iff (vs : List LoadError) (a b : α) :
    refuse vs a = .ok b ↔ vs = [] ∧ a = b := by
  cases vs <;> simp [refuse]

/-- A computation that goes on only where there are no violations yet. -/
theorem refuse_bind {vs ws : List LoadError} {a : α} {b : β} {f : α → Except LoadError β}
    (h : vs = [] → f a = refuse ws b) : (refuse vs a >>= f) = refuse (vs ++ ws) b := by
  cases vs with
  | nil => exact h rfl
  | cons v vs => rfl

theorem refuse_bind_ok {vs : List LoadError} {a : α} {b : β} {f : α → Except LoadError β}
    (h : vs = [] → f a = .ok b) : (refuse vs a >>= f) = refuse vs b := by
  have hbind : (refuse vs a >>= f) = refuse (vs ++ []) b := refuse_bind h
  rwa [List.append_nil] at hbind

namespace Xml

theorem TagText.tag_name (t : TagText) : t.tag.name = t.element := by
  rw [t.tag_eq]
  rfl

theorem TagText.collect_tag {σ : Type} (t : TagText)
    (take : σ → Attribute → Except LoadError σ) (start : σ) :
    t.tag.attributes.collect take start = t.written.foldlM take start := by
  rw [t.attributes_tag, AttributeRun.collect]
  exact bind_pure _

theorem TagText.required_tag (t : TagText) (key : String) :
    required t.element key (t.value? key) = refuse (t.missing key) ((t.value? key).getD "") := by
  rw [missing]
  cases t.value? key <;> rfl

theorem revisionDate_tag (t : TagText) : revisionDate t.tag = .ok (t.value? "date") := by
  have hfold : ∀ (as : List Attribute) (date : Option String),
      as.foldlM (m := Except LoadError)
        (fun date a => .ok (if a.key = "date" then some a.value else date)) date =
        .ok ((valueIn "date" as).or date) := by
    intro as
    induction as with
    | nil => intro date; rfl
    | cons a as ih =>
      intro date
      refine (ih _).trans ?_
      by_cases h : a.key = "date" <;> simp [valueIn, Attribute.valueFor, h]
  rw [revisionDate, t.collect_tag, hfold, Option.or_none]
  rfl

theorem valueIn_eq_none (key : String) (as : List Attribute) (h : key ∉ as.map Attribute.key) :
    valueIn key as = none := by
  induction as with
  | nil => rfl
  | cons a as ih =>
    rw [List.map_cons, List.mem_cons, not_or] at h
    simp [valueIn, Attribute.valueFor, ih h.2, Ne.symm h.1]

/-- Where keys are distinct, the first attribute of a key is the only one. -/
theorem find?_eq_valueIn (key : String) (as : List Attribute) (h : (as.map Attribute.key).Nodup) :
    (as.find? (fun a => a.key = key)).map Attribute.value = valueIn key as := by
  induction as with
  | nil => rfl
  | cons a as ih =>
    rw [List.map_cons, List.nodup_cons] at h
    by_cases hk : a.key = key
    · simp [hk, valueIn, Attribute.valueFor, valueIn_eq_none key as (hk ▸ h.1)]
    · simp [hk, valueIn, Attribute.valueFor, ← ih h.2]

theorem TagText.nodup_written (t : TagText) : (t.written.map Attribute.key).Nodup := by
  have hmap : t.written.map Attribute.key =
      (t.attributes.map (fun a => a.key.chars)).map String.ofList := by
    simp [written, AttributeText.attribute]
  rw [hmap]
  exact List.Pairwise.map String.ofList
    (fun _ _ hne he => hne (String.ofList_injective he)) t.distinct

theorem memberName_tag (t : TagText) :
    memberName t.tag = refuse (t.missing "name") ((t.value? "name").getD "") := by
  have hfind := find?_eq_valueIn "name" t.written t.nodup_written
  rw [memberName, t.attributes_tag, t.tag_name, TagText.missing, TagText.value?, ← hfind]
  dsimp only
  rw [← TagText.written]
  cases t.written.find? (fun a => decide (a.key = "name")) <;> rfl

end Xml

/-- A module with the values that some attributes have. -/
def Module.filled (m : Module) (value? : String → Option String) : Module :=
  { m with
    uri := (value? "namespace").or m.uri
    shortName := (value? "prefix").or m.shortName
    parent := (value? "belongs-to").or m.parent
    description := (value? "description").or m.description }

theorem Module.takeAttribute_eq (name : Option String) (m : Module) (a : Attribute) :
    takeAttribute (name, m) a = .ok ((a.valueFor "name").or name, m.filled a.valueFor) := by
  unfold takeAttribute
  dsimp only
  split <;> simp_all [filled, Attribute.valueFor]

theorem Module.foldlM_takeAttribute (as : List Attribute) (name : Option String) (m : Module) :
    as.foldlM takeAttribute (name, m) =
      .ok ((valueIn "name" as).or name, m.filled (fun key => valueIn key as)) := by
  induction as generalizing name m with
  | nil => rfl
  | cons a as ih =>
    rw [List.foldlM_cons, takeAttribute_eq]
    refine (ih _ _).trans ?_
    simp [valueIn, filled, Option.or_assoc]

/-- What the tag of a module stands for. -/
def Xml.TagText.module (t : TagText) : Module :=
  { (Module.ofName "").filled t.value? with name := (t.value? "name").getD "" }

theorem Module.ofTag_tag (t : TagText) :
    Module.ofTag t.tag = refuse t.moduleViolations t.module := by
  have hfold := foldlM_takeAttribute t.written none (Module.ofName "")
  rw [Option.or_none] at hfold
  rw [Module.ofTag, t.collect_tag, hfold, t.tag_name]
  change (required t.element "name" (t.value? "name") >>= _) = _
  rw [t.required_tag]
  refine refuse_bind fun _ => ?_
  have hparent : ((Module.ofName "").filled (fun key => valueIn key t.written)).parent.isNone =
      (t.value? "belongs-to").isNone := congrArg Option.isNone Option.or_none
  rw [hparent]
  by_cases hs : t.element = "submodule"
  · cases hb : t.value? "belongs-to" with
    | none => simp [hs, hb, TagText.missing, refuse]
    | some parent =>
      simp only [hs, hb, TagText.missing, decide_true, Option.isNone_some, Bool.and_false,
        Bool.false_eq_true, if_false, if_true]
      rfl
  · simp only [hs, decide_false, Bool.false_and, Bool.false_eq_true, if_false]
    rfl

/-- A flag as its value says, or as it was. -/
def flagOr (old : Bool) (value? : Option String) : Bool :=
  (value?.map (fun value => value == "true")).getD old

def Entry.filled (e : Entry) (value? : String → Option String) : Entry :=
  { e with
    mandatory := flagOr e.mandatory (value? "mandatory")
    inputOnly := flagOr e.inputOnly (value? "config-only")
    key := (value? "key").or e.key
    description := (value? "description").or e.description }

theorem flagOr_or (old : Bool) (new first : Option String) :
    flagOr old (new.or first) = flagOr (flagOr old first) new := by
  cases new <;> simp [flagOr]

theorem flag_eq (element : String) (a : Attribute)
    (h : a.key = "mandatory" ∨ a.key = "config-only") :
    flag element a.key a.value =
      refuse (flagViolation? element a).toList (a.value == "true") := by
  unfold flag flagViolation?
  by_cases ht : a.value = "true"
  · simp [ht, refuse]
  · by_cases hf : a.value = "false"
    · simp [hf, refuse]
    · simp [ht, hf, h, refuse]

theorem Entry.takeAttribute_eq (element : String) (name : Option String) (e : Entry)
    (a : Attribute) :
    takeAttribute element (name, e) a =
      refuse (flagViolation? element a).toList
        ((a.valueFor "name").or name, e.filled a.valueFor) := by
  -- an entry holds entries, so that it is its fields only after this
  cases e
  unfold takeAttribute
  dsimp only
  split
  · simp_all [filled, Attribute.valueFor, flagViolation?, refuse, flagOr]
  · rename_i hk
    rw [flag_eq element a (Or.inl hk)]
    refine refuse_bind_ok fun _ => ?_
    simp [filled, Attribute.valueFor, hk, flagOr]
  · rename_i hk
    rw [flag_eq element a (Or.inr hk)]
    refine refuse_bind_ok fun _ => ?_
    simp [filled, Attribute.valueFor, hk, flagOr]
  · simp_all [filled, Attribute.valueFor, flagViolation?, refuse, flagOr]
  · simp_all [filled, Attribute.valueFor, flagViolation?, refuse, flagOr]
  · simp_all [filled, Attribute.valueFor, flagViolation?, refuse, flagOr]

theorem Entry.foldlM_takeAttribute (element : String) (as : List Attribute) (name : Option String)
    (e : Entry) :
    as.foldlM (takeAttribute element) (name, e) =
      refuse (as.filterMap (flagViolation? element))
        ((valueIn "name" as).or name, e.filled (fun key => valueIn key as)) := by
  induction as generalizing name e with
  | nil =>
    cases e
    rfl
  | cons a as ih =>
    have hviolations : (a :: as).filterMap (flagViolation? element) =
        (flagViolation? element a).toList ++ as.filterMap (flagViolation? element) := by
      rw [List.filterMap_cons]
      cases flagViolation? element a <;> rfl
    rw [List.foldlM_cons, takeAttribute_eq, hviolations]
    refine refuse_bind fun _ => ?_
    rw [ih]
    simp [valueIn, filled, Option.or_assoc, flagOr_or]

/-- What the tag of an entry stands for, if its element stands for `bare`. -/
def Xml.TagText.entryOf (t : TagText) (bare : Entry) : Entry :=
  { bare.filled t.value? with name := (t.value? "name").getD "" }

theorem Entry.ofTag_tag (bare : Entry) (t : TagText) :
    Entry.ofTag bare t.tag = refuse t.entryViolations (t.entryOf bare) := by
  have hfold := foldlM_takeAttribute t.element t.written none bare
  rw [Option.or_none] at hfold
  rw [Entry.ofTag, t.collect_tag, t.tag_name, hfold]
  refine refuse_bind fun _ => ?_
  change (required t.element "name" (t.value? "name") >>= _) = _
  rw [t.required_tag]
  exact refuse_bind_ok fun _ => rfl

/-- What the tag of a type stands for. -/
def Xml.TagText.type (t : TagText) : LeafType :=
  let kind := BaseKind.ofKeyword ((t.value? "kind").getD "")
  { LeafType.ofKind kind with
    name := (t.value? "name").getD kind.keyword
    path := t.value? "path" }

theorem LeafType.foldlM_takeAttribute (as : List Attribute) (s : TypeAttributes) :
    as.foldlM takeAttribute s =
      .ok ⟨((valueIn "kind" as).map BaseKind.ofKeyword).or s.kind, (valueIn "name" as).or s.name,
        (valueIn "path" as).or s.path⟩ := by
  induction as generalizing s with
  | nil => rfl
  | cons a as ih =>
    have hstep : takeAttribute s a =
        .ok ⟨((a.valueFor "kind").map BaseKind.ofKeyword).or s.kind,
          (a.valueFor "name").or s.name, (a.valueFor "path").or s.path⟩ := by
      unfold takeAttribute
      split <;> simp_all [Attribute.valueFor]
    rw [List.foldlM_cons, hstep]
    refine (ih _).trans ?_
    simp [valueIn, Option.or_assoc, Option.map_or]

theorem LeafType.ofTag_tag (t : TagText) :
    LeafType.ofTag t.tag = refuse (t.missing "kind") t.type := by
  have hfold := foldlM_takeAttribute t.written ⟨none, none, none⟩
  simp only [Option.or_none] at hfold
  rw [LeafType.ofTag, t.collect_tag, t.tag_name, hfold, TagText.missing, TagText.type]
  cases hk : t.value? "kind" with
  | none =>
    rw [TagText.value?] at hk
    simp [hk, bind, Except.bind, refuse]
  | some kind =>
    rw [TagText.value?] at hk
    simp [hk, bind, Except.bind, refuse, TagText.value?]

namespace Xml

/-- What the tag of an entry stands for. -/
def TagText.entry (t : TagText) : Entry :=
  t.entryOf ((Entry.ofElement? t.element).getD (Entry.directory ""))

/-- A type with the value or the bit that a tag directly inside it names. -/
def TagText.memberOf (tag : TagText) (t : LeafType) : LeafType :=
  let name := (tag.value? "name").getD ""
  if tag.element = "enum" then { t with values := t.values ++ [name] }
  else if tag.element = "bit" then { t with bits := t.bits ++ [name] }
  else t

def Node.memberOf (n : Node) (t : LeafType) : LeafType :=
  (n.tag?.map (fun tag => tag.memberOf t)).getD t

mutual

def Node.type : Node → LeafType
  | .aside _ => LeafType.ofKind .none
  | .empty tag => tag.type
  | .element tag content _ => content.typeFrom tag.type

/-- A type with all that the content of its element adds to it. -/
def Content.typeFrom (t : LeafType) : Content → LeafType
  | .last _ => t
  | .next _ node rest =>
    if node.isAmong ["type"] then
      rest.typeFrom { t with members := t.members ++ [node.type] }
    else rest.typeFrom (node.memberOf t)

end

mutual

def Node.entry : Node → Entry
  | .aside _ => Entry.directory ""
  | .empty tag => tag.entry
  | .element tag content _ => content.entryFrom tag.entry

/-- An entry with all that the content of its element adds to it. -/
def Content.entryFrom (e : Entry) : Content → Entry
  | .last _ => e
  | .next _ node rest =>
    if node.isAmong ["type"] then rest.entryFrom { e with leafType := some node.type }
    else if node.isAmong entryElements then rest.entryFrom (e.insert node.entry)
    else rest.entryFrom e

end

/-- The texts directly among the content, each without the white space around it. -/
def Content.plainText : Content → String
  | .last text => trim (String.ofList text.chars)
  | .next text _ rest => trim (String.ofList text.chars) ++ rest.plainText

/-- The date of a revision element. -/
def Node.date (n : Node) : String := (n.value? "date").getD n.content.plainText

/-- A module with all that the content of its element adds to it. -/
def Content.moduleFrom (m : Module) : Content → Module
  | .last _ => m
  | .next _ node rest =>
    if node.isAmong ["revision"] then
      rest.moduleFrom { m with revisions := m.revisions ++ [node.date] }
    else if node.isAmong entryElements then rest.moduleFrom (m.insert node.entry)
    else rest.moduleFrom m

def Node.module : Node → Module
  | .aside _ => Module.ofName ""
  | .empty tag => tag.module
  | .element tag content _ => content.moduleFrom tag.module

theorem Node.type_eq {n : Node} {tag : TagText} (h : n.tag? = some tag) :
    n.type = n.content.typeFrom tag.type := by
  cases n <;> simp_all [tag?, content, type, Content.typeFrom]

theorem Node.entry_eq {n : Node} {tag : TagText} (h : n.tag? = some tag) :
    n.entry = n.content.entryFrom tag.entry := by
  cases n <;> simp_all [tag?, content, entry, Content.entryFrom]

theorem Node.module_eq {n : Node} {tag : TagText} (h : n.tag? = some tag) :
    n.module = n.content.moduleFrom tag.module := by
  cases n <;> simp_all [tag?, content, module, Content.moduleFrom]

end Xml

end YangScript
