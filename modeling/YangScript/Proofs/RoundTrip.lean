import Mathlib.Data.List.Forall2
import YangScript.Proofs.Rejection
import YangScript.Proofs.Writing

/-!
# Reading undoes writing

A tree that writes a type, an entry or a module has no violation and stands for what it writes.
For content the statement is about the parts that it adds: values, bits and members at the end of
those that the open type has, entries inserted one after another, so that their order among
siblings is forgotten. What the texts are makes no difference here: a legal module need not be one
that can be expressed without references.
-/

set_option autoImplicit false

namespace YangScript

open Xml Text

theorem BaseKind.ofKeyword_keyword_of_legal {kind : BaseKind}
    (h : ∀ keyword, kind = .unknown keyword → ∀ known ∈ builtins, known.keyword ≠ keyword) :
    ofKeyword kind.keyword = kind := by
  cases kind with
  | unknown keyword =>
    have hnone : builtins.find? (fun kind => kind.keyword == keyword) = Option.none := by
      rw [List.find?_eq_none]
      intro known hk
      simpa using h keyword rfl known hk
    rw [BaseKind.keyword, ofKeyword, hnone]
    rfl
  | _ => exact ofKeyword_keyword _ (by decide)

/-- A type with further values, bits and members. -/
def LeafType.extend (t : LeafType) (values bits : List String) (members : List LeafType) :
    LeafType :=
  { t with
    values := t.values ++ values
    bits := t.bits ++ bits
    members := t.members ++ members }

theorem LeafType.extend_nil (t : LeafType) : t.extend [] [] [] = t := by
  cases t
  simp [extend]

mutual

/-- No unknown kind has the keyword of a known one. -/
def LeafType.Legal : LeafType → Prop
  | ⟨_, kind, _, _, members, _⟩ =>
    (∀ keyword, kind = .unknown keyword → ∀ known ∈ BaseKind.builtins, known.keyword ≠ keyword) ∧
      LeafType.AllLegal members

def LeafType.AllLegal : List LeafType → Prop
  | [] => True
  | t :: ts => LeafType.Legal t ∧ LeafType.AllLegal ts

end

mutual

/-- Entries are kept in the order of their names, and the types are legal, at every depth. -/
def Entry.Legal : Entry → Prop
  | ⟨_, _, _, _, _, _, _, _, leafType, children⟩ =>
    (∀ t ∈ leafType, t.Legal) ∧ Keyed.Sorted Entry.name children ∧ Entry.AllLegal children

def Entry.AllLegal : List Entry → Prop
  | [] => True
  | e :: es => Entry.Legal e ∧ Entry.AllLegal es

end

structure Module.Legal (m : Module) : Prop where
  sorted : Keyed.Sorted Entry.name m.entries
  entries : Entry.AllLegal m.entries

mutual

theorem LeafType.Expressible.legal : {t : LeafType} → t.Expressible → t.Legal
  | ⟨_, _, _, _, _, _⟩, h => by
    rw [Expressible] at h
    exact ⟨h.2.2.1, AllExpressible.legal h.2.2.2.2.2.1⟩

theorem LeafType.AllExpressible.legal : {ts : List LeafType} → AllExpressible ts → AllLegal ts
  | [], _ => trivial
  | _ :: _, h => ⟨Expressible.legal h.1, AllExpressible.legal h.2⟩

end

mutual

theorem Entry.Expressible.legal : {e : Entry} → e.Expressible → e.Legal
  | ⟨_, _, _, _, _, _, _, _, _, _⟩, h => by
    rw [Expressible] at h
    obtain ⟨-, -, -, -, -, htype, hsorted, hchildren⟩ := h
    exact ⟨fun t ht => (htype t ht).legal, hsorted, AllExpressible.legal hchildren⟩

theorem Entry.AllExpressible.legal : {es : List Entry} → AllExpressible es → AllLegal es
  | [], _ => trivial
  | _ :: _, h => ⟨Expressible.legal h.1, AllExpressible.legal h.2⟩

end

theorem Module.Expressible.legal {m : Module} (h : m.Expressible) : m.Legal :=
  ⟨h.sorted, h.entries.legal⟩

theorem LeafType.allLegal_iff (ts : List LeafType) : AllLegal ts ↔ ∀ t ∈ ts, t.Legal := by
  induction ts with
  | nil => simp [AllLegal]
  | cons t ts ih => simp [AllLegal, ih]

theorem LeafType.Legal.members {y : LeafType} (h : y.Legal) : ∀ t ∈ y.members, t.Legal := by
  cases y
  rw [Legal, allLegal_iff] at h
  exact h.2

theorem Entry.allLegal_iff (es : List Entry) : AllLegal es ↔ ∀ e ∈ es, e.Legal := by
  induction es with
  | nil => simp [AllLegal]
  | cons e es ih => simp [AllLegal, ih]

namespace Xml

theorem TagText.missing_of_value {t : TagText} {key value : String}
    (h : t.value? key = some value) : t.missing key = [] := by
  rw [missing, h]
  rfl

theorem TagText.WritesType.type_eq {t : TagText} {y : LeafType} (h : t.WritesType y)
    (hy : y.Legal) :
    t.type = { LeafType.ofKind y.kind with name := y.name, path := y.path } := by
  obtain ⟨name, kind, values, bits, members, path⟩ := y
  rw [LeafType.Legal] at hy
  have hkind := BaseKind.ofKeyword_keyword_of_legal hy.1
  have hname : (t.value? "name").getD kind.keyword = name := by
    rcases h.name with hn | ⟨hn, hnone⟩
    · rw [hn]
      rfl
    · rw [hnone]
      exact hn.symm
  rw [TagText.type, h.kind, h.path]
  simp only [Option.getD_some, hkind, hname]

namespace Node

theorem writesType_iff {n : Node} {tag : TagText} (h : n.tag? = some tag) (y : LeafType) :
    n.WritesType y ↔
      tag.WritesType y ∧ n.content.WritesTypeParts y.values y.bits y.members := by
  cases n <;> simp_all [tag?, content, WritesType, Content.WritesTypeParts]

theorem writesEntry_iff {n : Node} {tag : TagText} (h : n.tag? = some tag) (e : Entry) :
    n.WritesEntry e ↔ tag.WritesEntry e ∧
      ∃ es, es.Perm e.children ∧ n.content.WritesEntryParts es e.leafType := by
  cases n with
  | aside a => simp [tag?] at h
  | empty t =>
    have ht : t = tag := Option.some.inj h
    simp only [WritesEntry, content, Content.WritesEntryParts, ht]
    refine and_congr_right fun _ => ⟨fun hp => ⟨[], by rw [hp.2], rfl, hp.1⟩, ?_⟩
    rintro ⟨es, hperm, rfl, htype⟩
    exact ⟨htype, List.nil_perm.mp hperm⟩
  | element t content closing =>
    have ht : t = tag := Option.some.inj h
    simp only [WritesEntry, Node.content, ht]

theorem memberViolations_of_name {n : Node} {name : String} (h : n.value? "name" = some name) :
    n.memberViolations = [] := by
  unfold memberViolations
  cases ht : n.tag? with
  | none => simp
  | some tag =>
    rw [n.value?_of_tag? ht] at h
    simp [TagText.missing_of_value h]

theorem memberOf_enum {n : Node} {name : String} (ha : n.isAmong ["enum"] = true)
    (h : n.value? "name" = some name) (t : LeafType) :
    n.memberOf t = { t with values := t.values ++ [name] } := by
  obtain ⟨tag, ht, he⟩ := (n.isAmong_iff _).mp ha
  rw [n.value?_of_tag? ht] at h
  rw [List.mem_singleton] at he
  simp [memberOf, ht, TagText.memberOf, he, h]

theorem memberOf_bit {n : Node} {name : String} (ha : n.isAmong ["bit"] = true)
    (h : n.value? "name" = some name) (t : LeafType) :
    n.memberOf t = { t with bits := t.bits ++ [name] } := by
  obtain ⟨tag, ht, he⟩ := (n.isAmong_iff _).mp ha
  rw [n.value?_of_tag? ht] at h
  rw [List.mem_singleton] at he
  simp [memberOf, ht, TagText.memberOf, he, h]

/-- Whatever else stands in a type means nothing there. -/
theorem member_of_not_among {n : Node} (henum : n.isAmong ["enum"] = false)
    (hbit : n.isAmong ["bit"] = false) :
    n.memberViolations = [] ∧ ∀ t, n.memberOf t = t := by
  cases ht : n.tag? with
  | none => simp [memberViolations, memberOf, isAmong, ht]
  | some tag =>
    simp only [n.isAmong_of_tag? ht, List.contains_eq_mem, List.mem_singleton,
      decide_eq_false_iff_not] at henum hbit
    simp [memberViolations, memberOf, isAmong, ht, TagText.memberOf, henum, hbit]

/-- A type element stands for the type that it writes if its content adds what it writes. -/
theorem type_of_writes {n : Node} {y : LeafType} (hw : n.WritesType y) (hy : y.Legal)
    (hcontent : n.content.WritesTypeParts y.values y.bits y.members →
      n.content.typeViolations = [] ∧
        ∀ t, n.content.typeFrom t = t.extend y.values y.bits y.members) :
    n.typeViolations = [] ∧ n.type = y := by
  cases ht : n.tag? with
  | none => cases n <;> simp_all [tag?, WritesType]
  | some tag =>
    obtain ⟨htag, hparts⟩ := (writesType_iff ht y).mp hw
    obtain ⟨hviolations, hfrom⟩ := hcontent hparts
    constructor
    · rw [n.typeViolations_eq ht, TagText.missing_of_value htag.kind, hviolations]
      rfl
    · rw [n.type_eq ht, hfrom, htag.type_eq hy]
      cases y
      rfl

end Node

theorem Content.type_of_writes (c : Content) {values bits : List String} {members : List LeafType}
    (hw : c.WritesTypeParts values bits members) (hm : ∀ t ∈ members, t.Legal) :
    c.typeViolations = [] ∧ ∀ t, c.typeFrom t = t.extend values bits members := by
  induction c using Content.induction generalizing values bits members with
  | last text =>
    obtain ⟨rfl, rfl, rfl⟩ := hw
    exact ⟨rfl, fun t => t.extend_nil.symm⟩
  | next text node rest ihnode ihrest =>
    simp only [WritesTypeParts] at hw
    split at hw
    · rename_i ha
      obtain ⟨y, ys, rfl, hnode, hrest⟩ := hw
      have hy := hm y List.mem_cons_self
      obtain ⟨hv, htype⟩ := node.type_of_writes hnode hy (fun hparts => ihnode hparts hy.members)
      obtain ⟨hvs, hfrom⟩ := ihrest hrest (fun t ht => hm t (List.mem_cons_of_mem y ht))
      simp only [typeViolations, typeFrom, ha, if_true, hv, hvs, htype, hfrom]
      exact ⟨rfl, fun t => by simp [LeafType.extend]⟩
    · rename_i ha
      split at hw
      · rename_i henum
        obtain ⟨v, vs, rfl, hname, hrest⟩ := hw
        obtain ⟨hvs, hfrom⟩ := ihrest hrest hm
        simp only [typeViolations, typeFrom, ha, node.memberViolations_of_name hname, hvs,
          node.memberOf_enum henum hname, hfrom]
        exact ⟨rfl, fun t => by simp [LeafType.extend]⟩
      · split at hw
        · rename_i hbit
          obtain ⟨b, bs, rfl, hname, hrest⟩ := hw
          obtain ⟨hvs, hfrom⟩ := ihrest hrest hm
          simp only [typeViolations, typeFrom, ha, node.memberViolations_of_name hname, hvs,
            node.memberOf_bit hbit hname, hfrom]
          exact ⟨rfl, fun t => by simp [LeafType.extend]⟩
        · rename_i henum hbit
          obtain ⟨hv, hkeep⟩ :=
            node.member_of_not_among (by simpa using henum) (by simpa using hbit)
          obtain ⟨hvs, hfrom⟩ := ihrest hw hm
          simp only [typeViolations, typeFrom, ha, hv, hvs, hkeep, hfrom]
          exact ⟨rfl, fun t => rfl⟩

theorem Node.type_of_writesType {n : Node} {y : LeafType} (hw : n.WritesType y)
    (hy : y.Legal) : n.typeViolations = [] ∧ n.type = y :=
  n.type_of_writes hw hy (fun hparts => n.content.type_of_writes hparts hy.members)

theorem valueIn_of_mem {a : Attribute} {as : List Attribute} (h : a ∈ as)
    (hnodup : (as.map Attribute.key).Nodup) : valueIn a.key as = some a.value := by
  induction as with
  | nil => simp at h
  | cons b as ih =>
    rw [List.map_cons, List.nodup_cons] at hnodup
    rw [valueIn]
    rcases List.mem_cons.mp h with rfl | hm
    · simp [valueIn_eq_none a.key as hnodup.1, Attribute.valueFor]
    · rw [ih hm hnodup.2, Option.some_or]

namespace TagText

theorem WritesFlag.legal {t : TagText} {on : Bool} {key : String} (h : t.WritesFlag on key)
    {a : Attribute} (ha : a ∈ t.written) (hk : a.key = key) :
    a.value = "true" ∨ a.value = "false" := by
  have hvalue : t.value? key = some a.value := hk ▸ valueIn_of_mem ha t.nodup_written
  rw [WritesFlag, hvalue] at h
  cases on <;> simp_all

theorem WritesFlag.flagOr_eq {t : TagText} {on : Bool} {key : String}
    (h : t.WritesFlag on key) : flagOr false (t.value? key) = on := by
  rcases h with h | ⟨rfl, h⟩ <;> rw [h]
  · cases on <;> rfl
  · rfl

theorem WritesEntry.entryViolations_eq {t : TagText} {e : Entry} (h : t.WritesEntry e) :
    t.entryViolations = [] := by
  have hflags : t.written.filterMap (flagViolation? t.element) = [] := by
    rw [List.filterMap_eq_nil_iff]
    intro a ha
    rw [flagViolation?, if_neg]
    rintro ⟨hk, htrue, hfalse⟩
    rcases hk with hk | hk
    · exact (h.mandatory.legal ha hk).elim htrue hfalse
    · exact (h.inputOnly.legal ha hk).elim htrue hfalse
  rw [TagText.entryViolations, hflags, missing_of_value h.name]
  rfl

end TagText

end Xml

/-- The elements of an entry stand for a bare entry of its kind and with its marks. -/
theorem Entry.ofElement?_of_mem {e : Entry} {name : String} (h : name ∈ e.elements) :
    ofElement? name =
      some { ofKind "" e.kind with operation := e.operation, repeated := e.repeated } := by
  unfold elements at h
  split at h <;> simp only [List.mem_cons, List.not_mem_nil, or_false] at h
  all_goals rename_i hkind hoperation hrepeated
  all_goals rw [hkind, hoperation, hrepeated]
  all_goals rcases h with rfl | rfl <;> rfl

theorem Xml.TagText.WritesEntry.entry_eq {t : TagText} {e : Entry} (h : t.WritesEntry e) :
    t.entry = { e with leafType := none, children := [] } := by
  rw [TagText.entry, Entry.ofElement?_of_mem h.element]
  change Entry.mk _ _ (flagOr false (t.value? "mandatory")) (flagOr false (t.value? "config-only"))
    _ _ ((t.value? "key").or none) ((t.value? "description").or none) _ _ = _
  rw [h.mandatory.flagOr_eq, h.inputOnly.flagOr_eq, h.key, h.description, h.name, Option.or_none,
    Option.or_none]
  rfl

/-- Entries put among others one after another, each at the place of its name. -/
def Entry.merge (es items : List Entry) : List Entry :=
  es.foldl (fun items e => Keyed.insert Entry.name e items) items

/-- An entry with further children, and with a type if there is a new one. -/
def Entry.extend (e : Entry) (es : List Entry) (type : Option LeafType) : Entry :=
  { e with children := merge es e.children, leafType := type.or e.leafType }

theorem Entry.extend_nil (e : Entry) : e.extend [] none = e := by
  cases e
  rfl

theorem Entry.Legal.parts {e : Entry} (h : e.Legal) :
    (∀ t ∈ e.leafType, t.Legal) ∧ Keyed.Sorted Entry.name e.children ∧
      ∀ child ∈ e.children, child.Legal := by
  cases e
  rw [Legal, allLegal_iff] at h
  exact h

namespace Xml

/-- An entry of a new name breaks nothing at its end tag. -/
theorem Node.nameViolations_of_fresh {n : Node} {name : String} (h : n.value? "name" = some name)
    {earlier : List String} (hfresh : name ∉ earlier) (owner : String) :
    n.nameViolations owner earlier = [] := by
  rw [nameViolations, h]
  exact if_neg hfresh

/-- The names of entries that follow, and those of earlier siblings, without repetition. -/
theorem nodup_next {e : Entry} {tail : List Entry} {earlier : List String} {n : Node}
    (h : ((e :: tail).map Entry.name ++ earlier).Nodup) (hname : n.value? "name" = some e.name) :
    e.name ∉ earlier ∧ (tail.map Entry.name ++ ((n.value? "name").toList ++ earlier)).Nodup := by
  rw [List.map_cons, List.cons_append, List.nodup_cons, List.mem_append, not_or] at h
  refine ⟨h.1.2, ?_⟩
  rw [hname]
  exact List.perm_middle.nodup_iff.mpr (List.nodup_cons.mpr ⟨by simpa using h.1, h.2⟩)

/-- An entry element stands for the entry that it writes if its content adds what it writes. -/
theorem Node.entry_of_writes {n : Node} {e : Entry} (hw : n.WritesEntry e) (he : e.Legal)
    (hcontent : ∀ es, (∀ child ∈ es, child.Legal) → (es.map Entry.name).Nodup →
      n.content.WritesEntryParts es e.leafType →
        n.content.entryViolations e.name [] false = [] ∧
          ∀ o, n.content.entryFrom o = o.extend es e.leafType) :
    n.entryViolations = [] ∧ n.value? "name" = some e.name ∧ n.entry = e := by
  cases ht : n.tag? with
  | none => cases n <;> simp_all [tag?, WritesEntry]
  | some tag =>
    obtain ⟨htag, es, hperm, hparts⟩ := (n.writesEntry_iff ht e).mp hw
    obtain ⟨-, hsorted, hchildren⟩ := he.parts
    have hnodup : (es.map Entry.name).Nodup := (hperm.map Entry.name).nodup_iff.mpr hsorted.nodup
    obtain ⟨hviolations, hfrom⟩ :=
      hcontent es (fun child hc => hchildren child (hperm.mem_iff.mp hc)) hnodup hparts
    have hmerge : Entry.merge es [] = e.children := Keyed.foldl_insert_of_perm hsorted hperm
    refine ⟨?_, (n.value?_of_tag? ht "name").trans htag.name, ?_⟩
    · rw [n.entryViolations_eq ht, htag.entryViolations_eq, htag.name, Option.getD_some,
        hviolations]
      rfl
    · rw [n.entry_eq ht, hfrom, htag.entry_eq, Entry.extend, hmerge, Option.or_none]
      cases e
      rfl

theorem Content.entry_of_writes (c : Content) {es : List Entry} {type : Option LeafType}
    (hw : c.WritesEntryParts es type) (hes : ∀ e ∈ es, e.Legal)
    (htype : ∀ t ∈ type, t.Legal) (owner : String) (earlier : List String) (typed : Bool)
    (hfresh : (es.map Entry.name ++ earlier).Nodup) (hone : typed = true → type = none) :
    c.entryViolations owner earlier typed = [] ∧
      ∀ o, c.entryFrom o = o.extend es type := by
  induction c using Content.induction generalizing es type owner earlier typed with
  | last text =>
    obtain ⟨rfl, rfl⟩ := hw
    exact ⟨rfl, fun o => o.extend_nil.symm⟩
  | next text node rest ihnode ihrest =>
    simp only [WritesEntryParts] at hw
    split at hw
    · rename_i ha
      obtain ⟨y, rfl, hnode, hrest⟩ := hw
      obtain ⟨hv, hy⟩ := node.type_of_writesType hnode (htype y rfl)
      have huntyped : typed = false := by simpa using hone
      obtain ⟨hvs, hfrom⟩ := ihrest hrest hes (by simp) owner earlier true hfresh (fun _ => rfl)
      simp only [entryViolations, entryFrom, ha, if_true, hv, hvs, hy, hfrom, huntyped]
      exact ⟨rfl, fun o => rfl⟩
    · rename_i ha
      split at hw
      · rename_i hb
        obtain ⟨e, tail, rfl, hnode, hrest⟩ := hw
        have he := hes e List.mem_cons_self
        obtain ⟨hv, hname, hentry⟩ := node.entry_of_writes hnode he fun es hes hnodup hparts =>
          ihnode hparts hes he.parts.1 e.name [] false (by simpa using hnodup) (by simp)
        obtain ⟨hnew, hnext⟩ := nodup_next hfresh hname
        obtain ⟨hvs, hfrom⟩ := ihrest hrest (fun e' h => hes e' (List.mem_cons_of_mem e h)) htype
          owner _ typed hnext hone
        simp only [entryViolations, entryFrom, ha, hb, if_true, hv, hvs,
          node.nameViolations_of_fresh hname hnew, hentry, hfrom]
        exact ⟨rfl, fun o => rfl⟩
      · rename_i hb
        obtain ⟨hvs, hfrom⟩ := ihrest hw hes htype owner earlier typed hfresh hone
        simp only [entryViolations, entryFrom, ha, hb, hvs, hfrom]
        exact ⟨rfl, fun o => rfl⟩

theorem Node.entry_of_writesEntry {n : Node} {e : Entry} (hw : n.WritesEntry e)
    (he : e.Legal) :
    n.entryViolations = [] ∧ n.value? "name" = some e.name ∧ n.entry = e :=
  n.entry_of_writes hw he fun _ hes hnodup hparts =>
    n.content.entry_of_writes hparts hes he.parts.1 e.name [] false (by simpa using hnodup)
      (by simp)

theorem Node.date_of_writesRevision {n : Node} {date : String} (hw : n.WritesRevision date) :
    n.revisionViolations = [] ∧ n.date = date := by
  rw [revisionViolations, Node.date]
  rcases hw with h | ⟨hnone, hne, text, hcontent, htrim⟩
  · rw [h]
    exact ⟨rfl, rfl⟩
  · have hplain : n.content.plainText = date := by rw [hcontent, ← htrim]; rfl
    have hsome : n.content.hasPlainText = true := by
      rw [Content.hasPlainText_iff, hplain]
      exact hne
    rw [hnone, hsome, hplain]
    exact ⟨rfl, rfl⟩

/-- An element of an entry is neither a type nor a revision. -/
theorem Node.isAmong_entryElements {n : Node} (h : n.isAmong entryElements = true) :
    n.isAmong ["type"] = false ∧ n.isAmong ["revision"] = false := by
  obtain ⟨tag, ht, hm⟩ := (n.isAmong_iff _).mp h
  have hdisjoint : ∀ s ∈ entryElements, s ≠ "type" ∧ s ≠ "revision" := by decide
  rw [n.isAmong_of_tag? ht, n.isAmong_of_tag? ht]
  simpa using hdisjoint tag.element hm

/-- The elements with one of some names that stand directly in the content. -/
def Content.among (names : List String) : Content → List Node
  | .last _ => []
  | .next _ node rest =>
    if node.isAmong names then node :: rest.among names else rest.among names

/-- The entries and the revisions of a module are mixed anyhow, so that each can be told apart. -/
theorem Content.WritesModuleParts.among {c : Content} {es : List Entry} {dates : List String}
    (hw : c.WritesModuleParts es dates) :
    List.Forall₂ Node.WritesEntry es (c.among entryElements) ∧
      List.Forall₂ Node.WritesRevision dates (c.among ["revision"]) := by
  induction c using Content.induction generalizing es dates with
  | last text =>
    obtain ⟨rfl, rfl⟩ := hw
    exact ⟨.nil, .nil⟩
  | next text node rest _ ihrest =>
    simp only [WritesModuleParts] at hw
    rw [Content.among, Content.among]
    split at hw
    · rename_i ha
      obtain ⟨d, ds, rfl, hnode, hrest⟩ := hw
      have hb : node.isAmong entryElements = false := by
        cases hentry : node.isAmong entryElements with
        | false => rfl
        | true => exact absurd ha (by simp [(Node.isAmong_entryElements hentry).2])
      rw [if_pos ha, hb]
      exact ⟨(ihrest hrest).1, .cons hnode (ihrest hrest).2⟩
    · rename_i ha
      rw [if_neg ha]
      split at hw
      · rename_i hb
        obtain ⟨e, tail, rfl, hnode, hrest⟩ := hw
        rw [if_pos hb]
        exact ⟨.cons hnode (ihrest hrest).1, (ihrest hrest).2⟩
      · rename_i hb
        rw [if_neg hb]
        exact ihrest hw

/-- Whatever its revisions are, content that has elements for some entries adds these. -/
theorem Content.module_of_entries (c : Content) {es : List Entry}
    (hw : List.Forall₂ Node.WritesEntry es (c.among entryElements)) (hes : ∀ e ∈ es, e.Legal)
    (owner : String) (earlier : List String) (hfresh : (es.map Entry.name ++ earlier).Nodup) :
    c.moduleViolations owner earlier =
        (c.among ["revision"]).flatMap Node.revisionViolations ∧
      ∀ m, c.moduleFrom m =
        { m with
          entries := Entry.merge es m.entries
          revisions := m.revisions ++ (c.among ["revision"]).map Node.date } := by
  induction c using Content.induction generalizing es owner earlier with
  | last text =>
    obtain rfl := List.forall₂_nil_right_iff.mp hw
    exact ⟨rfl, fun m => by simp [moduleFrom, Entry.merge, Content.among]⟩
  | next text node rest _ ihrest =>
    rw [Content.among] at hw
    rw [Content.among]
    by_cases hb : node.isAmong entryElements = true
    · have ha := (Node.isAmong_entryElements hb).2
      rw [if_pos hb] at hw
      obtain ⟨e, tail, hnode, hrest, rfl⟩ := List.forall₂_cons_right_iff.mp hw
      obtain ⟨hv, hname, hentry⟩ := node.entry_of_writesEntry hnode (hes e List.mem_cons_self)
      obtain ⟨hnew, hnext⟩ := nodup_next hfresh hname
      obtain ⟨hvs, hfrom⟩ :=
        ihrest hrest (fun e' h => hes e' (List.mem_cons_of_mem e h)) owner _ hnext
      simp only [moduleViolations, moduleFrom, ha, hb, if_true, hv, hvs,
        node.nameViolations_of_fresh hname hnew, hentry, hfrom]
      exact ⟨rfl, fun m => rfl⟩
    · rw [if_neg hb] at hw
      obtain ⟨hvs, hfrom⟩ := ihrest hw hes owner earlier hfresh
      by_cases ha : node.isAmong ["revision"] = true
      · simp only [moduleViolations, moduleFrom, ha, if_true, hvs, hfrom]
        exact ⟨rfl, fun m => by simp⟩
      · simp only [moduleViolations, moduleFrom, ha, hb, hvs, hfrom]
        exact ⟨rfl, fun m => rfl⟩

theorem TagText.WritesModule.moduleViolations_eq {t : TagText} {m : Module}
    (h : t.WritesModule m) : t.moduleViolations = [] := by
  rw [TagText.moduleViolations, missing_of_value h.name, List.nil_append]
  split
  · rename_i hs
    rcases h.element with he | ⟨-, hparent⟩
    · rw [he] at hs
      exact absurd hs (by decide)
    · obtain ⟨parent, hp⟩ := Option.isSome_iff_exists.mp hparent
      exact missing_of_value (h.parent.trans hp)
  · rfl

theorem TagText.WritesModule.module_eq {t : TagText} {m : Module} (h : t.WritesModule m) :
    t.module = { m with revisions := [], entries := [] } := by
  rw [TagText.module, Module.filled, h.name, h.uri, h.shortName, h.parent, h.description]
  simp [Module.ofName]

/-- The tag and the entry elements write those of a module, whatever the revisions are. -/
def Node.WritesFrame (m : Module) (n : Node) : Prop :=
  ∃ tag, n.tag? = some tag ∧ tag.WritesModule m ∧
    ∃ es, es.Perm m.entries ∧ List.Forall₂ Node.WritesEntry es (n.content.among entryElements)

theorem Node.WritesModule.frame {n : Node} {m : Module} (hw : n.WritesModule m) :
    n.WritesFrame m ∧
      List.Forall₂ Node.WritesRevision m.revisions (n.content.among ["revision"]) := by
  obtain ⟨tag, ht, htag, es, hperm, hparts⟩ := hw
  exact ⟨⟨tag, ht, htag, es, hperm, hparts.among.1⟩, hparts.among.2⟩

/-- Such an element breaks nothing but where a revision does, and stands for the module with the
dates that its revisions have. -/
theorem Node.module_of_writesFrame {n : Node} {m : Module} (hw : n.WritesFrame m)
    (hm : m.Legal) :
    n.moduleViolations = (n.content.among ["revision"]).flatMap Node.revisionViolations ∧
      n.module = { m with revisions := (n.content.among ["revision"]).map Node.date } := by
  obtain ⟨tag, ht, htag, es, hperm, hparts⟩ := hw
  have hentries := (Entry.allLegal_iff m.entries).mp hm.entries
  have hnodup : (es.map Entry.name).Nodup := (hperm.map Entry.name).nodup_iff.mpr hm.sorted.nodup
  obtain ⟨hviolations, hfrom⟩ := n.content.module_of_entries hparts
    (fun e he => hentries e (hperm.mem_iff.mp he)) m.name [] (by simpa using hnodup)
  have hmerge : Entry.merge es [] = m.entries := Keyed.foldl_insert_of_perm hm.sorted hperm
  constructor
  · rw [n.moduleViolations_eq ht, htag.moduleViolations_eq, htag.name, Option.getD_some,
      hviolations]
    rfl
  · rw [n.module_eq ht, hfrom, htag.module_eq]
    simp only [hmerge, List.nil_append]

theorem Node.dates_of_writesRevision {dates : List String} {revisions : List Node}
    (hw : List.Forall₂ Node.WritesRevision dates revisions) :
    revisions.flatMap Node.revisionViolations = [] ∧ revisions.map Node.date = dates := by
  induction hw with
  | nil => exact ⟨rfl, rfl⟩
  | cons hnode _ ih =>
    obtain ⟨hv, hdate⟩ := date_of_writesRevision hnode
    rw [List.flatMap_cons, List.map_cons, hv, hdate, ih.1, ih.2]
    exact ⟨rfl, rfl⟩

/-- A module element that writes a module breaks nothing and stands for that module. -/
theorem Node.module_of_writes {n : Node} {m : Module} (hw : n.WritesModule m)
    (hm : m.Legal) : n.moduleViolations = [] ∧ n.module = m := by
  obtain ⟨hframe, hrevisions⟩ := hw.frame
  obtain ⟨hviolations, hmodule⟩ := n.module_of_writesFrame hframe hm
  obtain ⟨hnone, hdates⟩ := dates_of_writesRevision hrevisions
  rw [hviolations, hmodule, hnone, hdates]
  exact ⟨rfl, rfl⟩

/-- Every document that writes a module is read as that module. -/
theorem Document.ofDocument_of_writes {d : Document} {m : Module} (hw : d.Writes m)
    (hm : m.Expressible) : Module.ofDocument d.text = .ok m := by
  obtain ⟨n, hfirst, hn⟩ := hw
  obtain ⟨hviolations, hmodule⟩ := n.module_of_writes hn hm.legal
  rw [Module.ofDocument_text d hfirst, hviolations, hmodule]
  rfl

end Xml

end YangScript
