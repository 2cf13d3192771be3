import YangScript.Proofs.AsideReading

/-!
# Reading a document gives the events of its tree

The events of a tree are its tags, its asides and its texts in order; a text of blanks gives no
event. Text is read up to the next markup, so the text behind a written piece of a document may
not go on with characters of text.
-/

set_option autoImplicit false

namespace YangScript.Xml

open YangScript.Text

namespace Stream

/-- The stream of some events and, behind them, another stream. -/
def after (es : List Event) (rest : Stream) : Stream := es.foldr .event rest

theorem after_append (es fs : List Event) (rest : Stream) :
    after (es ++ fs) rest = after es (after fs rest) :=
  List.foldr_append

/-- The stream that goes on from one step of the reader. -/
def ofStep (opened : List String) : Step → Stream
  | .stop => .finished
  | .fault f => .fault f
  | .piece (.start tag) rest => .event (.start tag) (ofText (tag.name :: opened) rest)
  | .piece (.empty tag) rest => .event (.empty tag) (ofText opened rest)
  | .piece (.text s) rest => .event (.text s) (ofText opened rest)
  | .piece .aside rest => .event .aside (ofText opened rest)
  | .piece (.close name) rest =>
    match opened with
    | [] => .fault (.nesting (.strayEnd name))
    | expected :: outer =>
      if name = expected then .event .close (ofText outer rest)
      else .fault (.nesting (.mismatchedEnd expected name))

theorem ofText_eq_ofStep (opened : List String) (cs : List Char) :
    ofText opened cs = ofStep opened (Step.ofText cs) := by
  rw [ofText.eq_def]
  split
  · rename_i h
    rw [h]
    rfl
  · rename_i f h
    rw [h]
    rfl
  · rename_i p rest h
    have hstep := congrArg (ofStep opened) h
    rw [hstep]
    cases p <;> rfl

end Stream

def CharData.events (t : CharData) : List Event :=
  match t.chars.dropWhile isBlank with
  | [] => []
  | c :: cs => [.text (String.ofList (dropEndWhile isBlank (c :: cs)))]

mutual

def Node.events : Node → List Event
  | .aside _ => [.aside]
  | .empty tag => [.empty tag.tag]
  | .element tag content _ => .start tag.tag :: content.events ++ [.close]

def Content.events : Content → List Event
  | .last text => text.events
  | .next text node rest => text.events ++ node.events ++ rest.events

end

/-- No character of text stands at the beginning of `cs`. -/
def EndsText (cs : List Char) : Prop := ∀ c, cs.head? = some c → inText c = false

theorem endsText_nil : EndsText [] := by
  intro c h
  simp at h

theorem endsText_cons {c : Char} (h : inText c = false) (cs : List Char) : EndsText (c :: cs) := by
  intro d hd
  rw [List.head?_cons, Option.some.injEq] at hd
  rw [← hd]
  exact h

theorem Node.endsText_chars (n : Node) (rest : List Char) : EndsText (n.chars ++ rest) := by
  cases n with
  | aside a => cases a <;> exact endsText_cons (by decide) _
  | empty tag => exact endsText_cons (by decide) _
  | element tag content closing =>
    rw [Node.chars]
    exact endsText_cons (by decide) _

theorem inText_iff (c : Char) : inText c = true ↔ c ≠ '<' ∧ c ≠ '&' := by
  simp [inText]

/-- Blanks before markup are passed over, and other text is a piece of its own. -/
theorem CharData.step_chars (t : CharData) (rest : List Char) (h : EndsText rest) :
    t.events = [] ∧ Step.ofText (t.chars ++ rest) = Step.ofText rest ∨
      ∃ s, t.events = [.text s] ∧ Step.ofText (t.chars ++ rest) = .piece (.text s) rest := by
  cases hd : t.chars.dropWhile isBlank with
  | nil =>
    have hblank : (t.chars ++ rest).dropWhile isBlank = rest.dropWhile isBlank := by
      rw [List.dropWhile_append, hd]
      rfl
    refine Or.inl ⟨?_, ?_⟩
    · rw [events, hd]
    · rw [Step.ofText, Step.ofText, hblank]
  | cons c cs =>
    have hlegal : ∀ d ∈ c :: cs, inText d = true := fun d hm =>
      t.legal d ((List.dropWhile_sublist isBlank).subset (by rw [hd]; exact hm))
    obtain ⟨hlt, hamp⟩ := (inText_iff c).mp (hlegal c (by simp))
    have hcs : ∀ d ∈ cs, inText d = true := fun d hm => hlegal d (by simp [hm])
    have hblank : (t.chars ++ rest).dropWhile isBlank = c :: (cs ++ rest) := by
      rw [List.dropWhile_append, hd]
      rfl
    have hrun : (cs ++ rest).takeWhile inText = cs ∧ (cs ++ rest).dropWhile inText = rest := by
      rw [List.takeWhile_append_of_pos hcs, List.dropWhile_append_of_pos hcs]
      cases rest with
      | nil => simp
      | cons d rest => simp [h d rfl]
    refine Or.inr ⟨String.ofList (dropEndWhile isBlank (c :: cs)), ?_, ?_⟩
    · rw [events, hd]
    · unfold Step.ofText
      rw [hblank]
      split
      · contradiction
      · rename_i heq
        exact absurd (List.cons.inj heq).1 hlt
      · rename_i heq
        exact absurd (List.cons.inj heq).1 hamp
      · rename_i d tail _ _ heq
        obtain ⟨rfl, rfl⟩ := List.cons.inj heq
        rw [hrun.1, hrun.2]

theorem CharData.ofText_chars (t : CharData) (opened : List String) (rest : List Char)
    (h : EndsText rest) :
    Stream.ofText opened (t.chars ++ rest) = (Stream.ofText opened rest).after t.events := by
  rw [Stream.ofText_eq_ofStep]
  rcases t.step_chars rest h with ⟨hevents, hstep⟩ | ⟨s, hevents, hstep⟩
  · rw [hevents, hstep, ← Stream.ofText_eq_ofStep]
    rfl
  · rw [hevents, hstep]
    rfl

mutual

theorem Node.ofText_chars (n : Node) (opened : List String) (rest : List Char) :
    Stream.ofText opened (n.chars ++ rest) = (Stream.ofText opened rest).after n.events := by
  cases n with
  | aside a =>
    rw [Stream.ofText_eq_ofStep, Node.chars, Step.ofText_aside]
    rfl
  | empty tag =>
    have hcs : (Node.empty tag).chars ++ rest = '<' :: tag.chars ++ '/' :: '>' :: rest := by
      simp [Node.chars]
    rw [Stream.ofText_eq_ofStep, hcs, Step.ofText_empty]
    rfl
  | element tag content closing =>
    have hcs : (Node.element tag content closing).chars ++ rest =
        '<' :: tag.chars ++ '>' :: (content.chars ++
          ('<' :: '/' :: tag.name.chars ++ closing.chars ++ '>' :: rest)) := by
      simp [Node.chars]
    have hname : tag.tag.name = String.ofList tag.name.chars := by rw [tag.tag_eq]
    rw [Stream.ofText_eq_ofStep, hcs, Step.ofText_start]
    have hclose : EndsText ('<' :: '/' :: tag.name.chars ++ closing.chars ++ '>' :: rest) :=
      endsText_cons (by decide) _
    simp only [Stream.ofStep, hname]
    rw [content.ofText_chars _ _ hclose, Stream.ofText_eq_ofStep, Step.ofText_close]
    simp [Stream.ofStep, Node.events, Stream.after]

theorem Content.ofText_chars (c : Content) (opened : List String) (rest : List Char)
    (h : EndsText rest) :
    Stream.ofText opened (c.chars ++ rest) = (Stream.ofText opened rest).after c.events := by
  cases c with
  | last text =>
    rw [Content.chars, Content.events]
    exact text.ofText_chars opened rest h
  | next text node tail =>
    rw [Content.chars, Content.events, List.append_assoc, List.append_assoc,
      text.ofText_chars opened _ (node.endsText_chars _), node.ofText_chars,
      tail.ofText_chars opened rest h, ← Stream.after_append, ← Stream.after_append]

end

/-- A written document is read to its end. -/
theorem Document.ofDocument_text (d : Document) :
    Stream.ofDocument d.text = Stream.finished.after d.content.events := by
  have hmark : dropMark d.text.toList = d.content.chars := by
    rw [Document.text]
    split
    · simp [dropMark]
    · rw [String.toList_ofList]
      unfold dropMark
      split
      · rename_i cs heq
        exact absurd (congrArg List.head? heq) (by simpa using d.unmarked)
      · rfl
  have hread := d.content.ofText_chars [] [] endsText_nil
  rw [List.append_nil] at hread
  rw [Stream.ofDocument, hmark, hread, Stream.ofText_eq_ofStep]
  rfl

end YangScript.Xml
