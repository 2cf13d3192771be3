import YangScript.Document.Load
import YangScript.Proofs.Meaning
import YangScript.Proofs.TreeReading

/-!
# The machine on the events of a tree

The machine takes the events of a tree one after another. An empty element moves it like one that
is closed at once, a complete module is left alone, and an element that is skipped leaves the
machine where it stood. So only elements with content have to be followed, at three kinds of
places.
-/

set_option autoImplicit false

namespace YangScript

open Xml

namespace State

def advance (es : List Event) (s : State) : Except LoadError State := es.foldlM step s

theorem advance_nil (s : State) : advance [] s = .ok s := rfl

theorem advance_cons (e : Event) (es : List Event) (s : State) :
    advance (e :: es) s = s.step e >>= advance es :=
  List.foldlM_cons

theorem advance_append (es fs : List Event) (s : State) :
    advance (es ++ fs) s = advance es s >>= advance fs :=
  List.foldlM_append

theorem advance_complete (es : List Event) (m : Module) :
    advance es (complete m) = .ok (complete m) := by
  induction es with
  | nil => rfl
  | cons e es ih => exact ih

theorem run_event (e : Event) (rest : Stream) (s : State) :
    run (.event e rest) s = s.step e >>= run rest := by
  cases s with
  | complete m => exact (run_complete rest m).symm
  | waiting =>
    simp only [run]
    cases step waiting e <;> rfl
  | inside m place skipped =>
    simp only [run]
    cases step (inside m place skipped) e <;> rfl

theorem run_after (es : List Event) (rest : Stream) (s : State) :
    run (Stream.after es rest) s = advance es s >>= run rest := by
  induction es generalizing s with
  | nil => rfl
  | cons e es ih =>
    change run (.event e (Stream.after es rest)) s = _
    rw [run_event, advance_cons, bind_assoc]
    exact congrArg (s.step e >>= ·) (funext ih)

/-- An empty element is taken like one that is closed at once. -/
theorem step_empty (tag : Tag) (s : State) :
    s.step (.empty tag) = s.step (.start tag) >>= fun next => next.step .close := by
  cases s with
  | complete m => rfl
  | waiting =>
    simp only [step, stepWaiting]
    split
    · cases Module.ofTag tag <;> rfl
    · rfl
  | inside m place skipped =>
    cases skipped with
    | succ depth => rfl
    | zero =>
      cases place with
      | revision date text => rfl
      | type t outer owner path =>
        simp only [step, stepPlace, stepType]
        split
        · cases LeafType.ofTag tag <;> rfl
        · cases attachMember t tag <;> rfl
      | entries path =>
        simp only [step, stepPlace, stepEntries, emptyAmongEntries, openAmongEntries]
        split
        · cases revisionDate tag <;> rfl
        · cases LeafType.ofTag tag <;> rfl
        · split
          · rfl
          · rename_i bare _
            cases Entry.ofTag bare tag <;> rfl

theorem advance_text (t : CharData) (s : State) (h : ∀ text, s.step (.text text) = .ok s) :
    advance t.events s = .ok s := by
  unfold CharData.events
  split
  · rfl
  · rw [advance_cons, h]
    rfl

/-- The machine takes the start tag of an element, its content, and its end tag. -/
theorem advance_node {n : Node} {tag : TagText} (h : n.tag? = some tag) (s : State) :
    advance n.events s =
      s.step (.start tag.tag) >>= fun s => advance n.content.events s >>= fun s => s.step .close := by
  cases n with
  | aside a => simp [Node.tag?] at h
  | empty t =>
    rw [Node.tag?, Option.some.injEq] at h
    rw [Node.events, advance_cons, step_empty, h]
    exact bind_pure _
  | element t content closing =>
    rw [Node.tag?, Option.some.injEq] at h
    rw [Node.events, List.cons_append, advance_cons, h]
    refine congrArg (s.step (.start tag.tag) >>= ·) (funext fun s => ?_)
    rw [advance_append]
    refine congrArg (advance content.events s >>= ·) (funext fun s => ?_)
    exact bind_pure _

theorem advance_next (text : CharData) (node : Node) (rest : Xml.Content) (s : State)
    (h : ∀ text, s.step (.text text) = .ok s) :
    advance (Content.next text node rest).events s =
      advance node.events s >>= advance rest.events := by
  rw [Content.events, advance_append, advance_append, advance_text text s h]
  rfl

/-- Content in which the machine skips leaves it where it stood. -/
theorem advance_skipped (c : Xml.Content) (m : Module) (place : Place) (depth : Nat) :
    advance c.events (inside m place (depth + 1)) = .ok (inside m place (depth + 1)) := by
  induction c using Content.induction generalizing depth with
  | last text => exact advance_text text _ (fun _ => rfl)
  | next text node rest ihnode ihrest =>
    rw [advance_next text node rest _ (fun _ => rfl)]
    have hnode : advance node.events (inside m place (depth + 1)) =
        .ok (inside m place (depth + 1)) := by
      cases ht : node.tag? with
      | none =>
        cases node with
        | aside a => rfl
        | empty tag => simp [Node.tag?] at ht
        | element tag content closing => simp [Node.tag?] at ht
      | some tag =>
        rw [advance_node ht]
        change (advance node.content.events (inside m place (depth + 1 + 1)) >>= _) = _
        rw [ihnode (depth + 1)]
        rfl
    rw [hnode]
    exact ihrest depth

/-- An element from whose start tag on the machine skips does nothing but what that tag does. -/
theorem advance_skip {n : Node} {tag : TagText} (h : n.tag? = some tag) {s : State} {m : Module}
    {place : Place} {vs : List LoadError}
    (hstep : s.step (.start tag.tag) = refuse vs (inside m place 1)) :
    advance n.events s = refuse vs (inside m place 0) := by
  rw [advance_node h, hstep]
  refine refuse_bind_ok fun _ => ?_
  rw [advance_skipped n.content m place 0]
  rfl

theorem advance_aside {n : Node} (h : n.tag? = none) {s : State} (hs : s.step .aside = .ok s) :
    advance n.events s = .ok s := by
  cases n with
  | aside a =>
    rw [Node.events, advance_cons, hs]
    rfl
  | empty tag => simp [Node.tag?] at h
  | element tag content closing => simp [Node.tag?] at h

end State

end YangScript
