import YangScript.Proofs.Loading

/-!
# A document is refused exactly for its first violation

A written document is read to the end of its first module element. It gives the module that the
element stands for, unless the element breaks the format, and then the answer is the violation
that stands first in the text.
-/

set_option autoImplicit false

namespace YangScript

open Xml Text

theorem Xml.Content.hasPlainText_iff (c : Xml.Content) :
    c.hasPlainText = true ↔ c.plainText ≠ "" := by
  have hany : ∀ cs : List Char, cs.any (fun c => !isWhiteSpace c) = true ↔
      trim (String.ofList cs) ≠ "" := by
    intro cs
    rw [Ne, trim_eq_empty_iff, List.any_eq_true]
    simp
  induction c using Content.induction with
  | last text => exact hany text.chars
  | next text node rest _ ihrest =>
    have ih : rest.hasPlainText = true ↔ rest.plainText ≠ "" := ihrest
    rw [Content.hasPlainText, Content.plainText, Bool.or_eq_true, hany, ih]
    simp only [Ne, String.append_eq_empty_iff]
    exact Decidable.not_and_iff_not_or_not.symm

namespace State

theorem advance_revisionText (t : CharData) (m : Module) (date : Option String) (text : String) :
    advance t.events (inside m (.revision date text) 0) =
      .ok (inside m (.revision date (text ++ trim (String.ofList t.chars))) 0) := by
  rw [← trim_dropBlanks t.chars]
  unfold CharData.events
  split
  · rename_i h
    rw [h]
    simp [advance_nil, dropEndWhile, trim]
  · rename_i c cs h
    rw [h]
    rfl

/-- The texts of a revision are put together; whatever else stands there is skipped. -/
theorem advance_revisionContent (c : Xml.Content) (m : Module) (date : Option String)
    (text : String) :
    advance c.events (inside m (.revision date text) 0) =
      .ok (inside m (.revision date (text ++ c.plainText)) 0) := by
  induction c using Content.induction generalizing text with
  | last t => exact advance_revisionText t m date text
  | next t node rest _ ihrest =>
    rw [Content.events, advance_append, advance_append, advance_revisionText, Content.plainText,
      ← String.append_assoc]
    have hnode : advance node.events
        (inside m (.revision date (text ++ trim (String.ofList t.chars))) 0) =
          .ok (inside m (.revision date (text ++ trim (String.ofList t.chars))) 0) := by
      cases ht : node.tag? with
      | none => exact advance_aside ht rfl
      | some tag =>
        have hskip : step (inside m (.revision date (text ++ trim (String.ofList t.chars))) 0)
            (.start tag.tag) =
              refuse [] (inside m (.revision date (text ++ trim (String.ofList t.chars))) 1) := rfl
        exact advance_skip ht hskip
    change (advance node.events _ >>= _) = _
    rw [hnode]
    exact ihrest _

theorem advance_revision {n : Node} {tag : TagText} (ht : n.tag? = some tag)
    (h : tag.element = "revision") (m : Module) :
    advance n.events (inside m (.entries []) 0) =
      refuse n.revisionViolations
        (inside { m with revisions := m.revisions ++ [n.date] } (.entries []) 0) := by
  have hstart : step (inside m (.entries []) 0) (.start tag.tag) =
      .ok (inside m (.revision (tag.value? "date") "") 0) := by
    simp only [step, stepPlace, stepEntries, openAmongEntries, tag.tag_name, h]
    rw [revisionDate_tag]
    rfl
  rw [advance_node ht, hstart]
  change (advance n.content.events _ >>= _) = _
  rw [advance_revisionContent, String.empty_append]
  change (attachRevision m (tag.value? "date") n.content.plainText >>= _) = _
  unfold attachRevision
  rw [Node.revisionViolations, Node.date, n.value?_of_tag? ht]
  cases tag.value? "date" with
  | some date => rfl
  | none =>
    have hiff := n.content.hasPlainText_iff
    by_cases hp : n.content.plainText = ""
    · have hno : n.content.hasPlainText = false := by simpa [hp] using hiff
      simp [hp, hno, refuse, bind, Except.bind]
    · simp [hp, hiff.mpr hp, refuse, bind, Except.bind]

theorem attachEntry_module (m : Module) {n : Node} (hname : n.value? "name" = some n.entry.name)
    {earlier : List String} (hearlier : ∀ name, (m.child? name).isSome = true ↔ name ∈ earlier) :
    attachEntry m [] n.entry =
      refuse (n.nameViolations m.name earlier) (inside (m.insert n.entry) (.entries []) 0) := by
  have hiff := hearlier n.entry.name
  rw [attachEntry, Node.nameViolations, hname]
  by_cases hm : n.entry.name ∈ earlier
  · simp [hiff.mpr hm, hm, refuse]
  · simp [mt hiff.mp hm, hm, refuse]

/-- What the content of the module adds to it, and the first thing that is wrong with it. -/
theorem advance_moduleContent (c : Xml.Content) (m : Module) (earlier : List String)
    (hearlier : ∀ name, (m.child? name).isSome = true ↔ name ∈ earlier) :
    advance c.events (inside m (.entries []) 0) =
      refuse (c.moduleViolations m.name earlier) (inside (c.moduleFrom m) (.entries []) 0) := by
  induction c using Content.induction generalizing m earlier with
  | last text => exact advance_text text _ (fun _ => rfl)
  | next text node rest _ ihrest =>
    rw [advance_next text node rest _ (fun _ => rfl), Content.moduleViolations, Content.moduleFrom]
    cases ht : node.tag? with
    | none =>
      rw [advance_aside ht rfl]
      simp only [isAmong_of_aside ht, Bool.false_eq_true, if_false]
      exact ihrest m earlier hearlier
    | some tag =>
      by_cases hrevision : tag.element = "revision"
      · have ha : node.isAmong ["revision"] = true := by
          simp [Node.isAmong_of_tag? ht, hrevision]
        simp only [ha, if_true]
        rw [advance_revision ht hrevision]
        exact refuse_bind fun _ =>
          ihrest { m with revisions := m.revisions ++ [node.date] } earlier hearlier
      · have ha : node.isAmong ["revision"] = false := by
          simp [Node.isAmong_of_tag? ht, hrevision]
        simp only [ha, Bool.false_eq_true, if_false]
        by_cases hentry : tag.element ∈ entryElements
        · have hb : node.isAmong entryElements = true :=
            (Node.isAmong_iff _ _).mpr ⟨tag, ht, hentry⟩
          simp only [hb, if_true]
          rw [advance_entryElement ht hentry [] (advance_entryContent node.content m), bind_assoc,
            List.append_assoc]
          refine refuse_bind fun hv => ?_
          have hname := node.value?_name ht hv
          rw [attachEntry_module m hname hearlier, hname]
          refine refuse_bind fun _ => ihrest (m.insert node.entry) _ fun name => ?_
          rw [Module.isSome_child?_insert, hearlier]
          simp
        · have hb : node.isAmong entryElements = false := by
            simpa [Node.isAmong_of_tag? ht] using hentry
          simp only [hb, Bool.false_eq_true, if_false]
          have hskip : step (inside m (.entries []) 0) (.start tag.tag) =
              refuse [] (inside m (.entries []) 1) :=
            openAmongEntries_skip m (fun _ => hrevision) (by simp) hentry
          rw [advance_skip ht hskip]
          exact ihrest m earlier hearlier

theorem isModuleTag_iff (name : String) : isModuleTag name = true ↔ name ∈ moduleElements := by
  simp [isModuleTag, moduleElements]

/-- A module element completes the machine. -/
theorem advance_moduleElement {n : Node} {tag : TagText} (ht : n.tag? = some tag)
    (h : tag.element ∈ moduleElements) :
    advance n.events waiting = refuse n.moduleViolations (complete n.module) := by
  have hstart : step waiting (.start tag.tag) =
      refuse tag.moduleViolations (inside tag.module (.entries []) 0) := by
    simp only [step, stepWaiting, tag.tag_name, (isModuleTag_iff _).mpr h, if_true]
    rw [Module.ofTag_tag]
    exact refuse_bind_ok fun _ => rfl
  rw [advance_node ht, hstart, n.moduleViolations_eq ht, n.module_eq ht]
  refine refuse_bind fun _ => ?_
  rw [advance_moduleContent n.content tag.module []
    (fun name => by
      simp [Module.child?, Keyed.find?, TagText.module, Module.filled, Module.ofName])]
  exact refuse_bind_ok fun _ => rfl

/-- What the machine comes to that has waited for the module element `found`. -/
def afterSearch : Option Node → Except LoadError State
  | none => .ok waiting
  | some n => refuse n.moduleViolations (complete n.module)

theorem advance_waiting (c : Xml.Content) :
    advance c.events waiting = afterSearch c.firstModule? := by
  induction c using Content.induction with
  | last text => exact advance_text text _ (fun _ => rfl)
  | next text node rest ihnode ihrest =>
    rw [advance_next text node rest _ (fun _ => rfl), Content.firstModule?]
    cases ht : node.tag? with
    | none =>
      rw [advance_aside ht rfl, node.firstModule?_of_aside ht]
      exact ihrest
    | some tag =>
      by_cases hm : tag.element ∈ moduleElements
      · rw [advance_moduleElement ht hm, node.firstModule?_of_mem ht hm]
        exact refuse_bind_ok fun _ => advance_complete _ _
      · have hstart : step waiting (.start tag.tag) = .ok waiting := by
          have hno : isModuleTag tag.element = false := by
            simpa using mt (isModuleTag_iff tag.element).mp hm
          simp [step, stepWaiting, tag.tag_name, hno]
        rw [advance_node ht, hstart, node.firstModule?_of_not_mem ht hm]
        change ((advance node.content.events waiting >>= _) >>= _) = _
        rw [ihnode]
        cases node.content.firstModule? with
        | none => exact ihrest
        | some found =>
          rw [Option.some_or, afterSearch]
          cases found.moduleViolations with
          | nil => exact advance_complete _ _
          | cons v vs => rfl

end State

/-- The answer to a document with a module element. -/
theorem Module.ofDocument_text (d : Document) {n : Node} (h : d.content.firstModule? = some n) :
    Module.ofDocument d.text = refuse n.moduleViolations n.module := by
  rw [Module.ofDocument, d.ofDocument_text, State.run_after, State.advance_waiting, h]
  exact refuse_bind_ok fun _ => rfl

/-- A document is refused if and only if its first module element holds a violation, and then for
the first of them. -/
theorem refused_iff_first_violation (d : Document) {n : Node}
    (h : d.content.firstModule? = some n) :
    ((∃ e, Module.ofDocument d.text = .error e) ↔ n.moduleViolations ≠ []) ∧
      ∀ e, Module.ofDocument d.text = .error e ↔ n.moduleViolations.head? = some e := by
  rw [Module.ofDocument_text d h]
  refine ⟨?_, refuse_eq_error_iff _ _⟩
  simp only [refuse_eq_error_iff, ← Option.isSome_iff_exists, List.isSome_head?]

/-- The module without a name stands before the leaf without one. -/
theorem refused_iff_first_violation_nameless :
    ∃ (d : Document) (n : Node), d.text = "<module><leaf/></module>" ∧
      d.content.firstModule? = some n ∧
      n.moduleViolations = [.missingAttribute "module" "name", .missingAttribute "leaf" "name"] ∧
      Module.ofDocument d.text = .error (.missingAttribute "module" "name") := by
  let leaf : Node := .empty ⟨.ofString "leaf" (by decide), [], List.nodup_nil, .none⟩
  let d : Document :=
    { marked := false
      content := .next .none
        (.element ⟨.ofString "module" (by decide), [], List.nodup_nil, .none⟩
          (.next .none leaf (.last .none)) .none)
        (.last .none)
      unmarked := by decide }
  have hfirst : d.content.firstModule? = some _ := rfl
  exact ⟨d, _, by decide +kernel, hfirst, rfl, ((refused_iff_first_violation d hfirst).2 _).mpr rfl⟩

end YangScript
