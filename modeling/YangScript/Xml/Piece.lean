import YangScript.Xml.Tag

/-!
# The pieces of a document

Where text may stand, blanks are skipped and one piece is read: a tag, a run of text, or an aside
(comment, character data section, processing instruction, document type, reference). Asides
carry nothing that this library reads. What begins at a position is decided by at most two
characters; a piece that is begun must be finished.
-/

set_option autoImplicit false

namespace YangScript.Xml

open YangScript.Text

inductive Piece where
  | start (tag : Tag)
  | empty (tag : Tag)
  | close (name : String)
  | text (s : String)
  | aside

inductive Step where
  | stop
  | fault (f : Fault)
  | piece (p : Piece) (rest : List Char)

/-- The text up to the first `>` outside quotes and the text after it. The failure tells the quote
that was still open. -/
def tagEnd (quote : Option Char) : List Char → Except (Option Char) (List Char × List Char)
  | [] => .error quote
  | c :: cs =>
    match quote with
    | some q =>
      (tagEnd (if c = q then none else some q) cs).map (fun parts => (c :: parts.1, parts.2))
    | none =>
      if c = '>' then .ok ([], cs)
      else (tagEnd (if isQuote c then some c else none) cs).map
        (fun parts => (c :: parts.1, parts.2))

/-- The name in an end tag, without the blanks behind it; a name of blanks alone stays. -/
def endName (cs : List Char) : String :=
  let name := dropEndWhile isBlank cs
  String.ofList (if name.isEmpty then cs else name)

def Piece.ofTag (content : List Char) : Piece :=
  match content with
  | '/' :: name => .close (endName name)
  | _ =>
    if content.getLast? = some '/' then .empty (Tag.ofContent content.dropLast)
    else .start (Tag.ofContent content)

def Step.ofTag (cs : List Char) : Step :=
  match tagEnd none cs with
  | .error none => .fault (.markup .openTag)
  | .error (some q) => .fault (.markup (.openValue q))
  | .ok (content, rest) => .piece (Piece.ofTag content) rest

/-- An aside that ends at the first occurrence of `mark`. -/
def Step.asideTo (mark : List Char) (fault : MarkupFault) (cs : List Char) : Step :=
  match cut? mark cs with
  | none => .fault (.markup fault)
  | some (_, rest) => .piece .aside rest

def cdataMark : List Char := [']', ']', '>']
def commentMark : List Char := ['-', '-', '>']
def instructionMark : List Char := ['?', '>']

/-- Character data, from after `<![`. -/
def Step.ofCData (cs : List Char) : Step :=
  let word := ['C', 'D', 'A', 'T', 'A', '[']
  if word.isPrefixOf cs then asideTo cdataMark .openCData (cs.drop word.length)
  else .fault (.markup .openCData)

/-- A comment, from after `<!-`. -/
def Step.ofComment : List Char → Step
  | '-' :: cs => asideTo commentMark .openComment cs
  | _ => .fault (.markup .openComment)

/-- Whether the text after `<?` begins an XML declaration. -/
def beginsDeclaration (cs : List Char) : Bool :=
  match cs with
  | 'x' :: 'm' :: 'l' :: [] => true
  | 'x' :: 'm' :: 'l' :: c :: _ => isBlank c || c == '?'
  | _ => false

/-- A processing instruction, from after `<?`. The mark needs a question mark of its own. -/
def Step.ofInstruction (cs : List Char) : Step :=
  match cs with
  | '>' :: _ => .fault (.markup .openInstruction)
  | _ =>
    asideTo instructionMark
      (if beginsDeclaration cs then .openDeclaration else .openInstruction) cs

/-- What follows one declaration of an internal subset, read from after its `<`. -/
def afterDeclaration? (cs : List Char) : Option (List Char) :=
  let quoting := [['!', 'E', 'N', 'T', 'I', 'T', 'Y'], ['!', 'A', 'T', 'T', 'L', 'I', 'S', 'T'],
    ['!', 'N', 'O', 'T', 'A', 'T', 'I', 'O', 'N']]
  match cs with
  | '?' :: inner => (cut? instructionMark inner).map Prod.snd
  | '!' :: '-' :: '-' :: inner => (cut? commentMark inner).map Prod.snd
  | _ =>
    if quoting.any (fun word => word.isPrefixOf cs) then
      match tagEnd none cs with
      | .error _ => none
      | .ok (_, rest) => some rest
    else (cut? ['>'] cs).map Prod.snd

theorem length_tagEnd (quote : Option Char) (cs content rest : List Char)
    (h : tagEnd quote cs = .ok (content, rest)) : rest.length < cs.length := by
  induction cs generalizing quote content with
  | nil => simp [tagEnd] at h
  | cons c cs ih =>
    have step : ∀ q, (tagEnd q cs).map (fun parts => (c :: parts.1, parts.2)) =
        Except.ok (content, rest) → rest.length < (c :: cs).length := by
      intro q hq
      cases hc : tagEnd q cs with
      | error e => simp [hc, Except.map] at hq
      | ok parts =>
        simp only [hc, Except.map, Except.ok.injEq, Prod.mk.injEq] at hq
        have := ih q parts.1 (by rw [hc, ← hq.2])
        simp only [List.length_cons]
        omega
    cases quote with
    | some q => exact step _ (by simpa [tagEnd] using h)
    | none =>
      rw [tagEnd] at h
      split at h
      · simp only [Except.ok.injEq, Prod.mk.injEq] at h
        simp [h.2]
      · exact step _ h

theorem length_afterDeclaration? (cs rest : List Char) (h : afterDeclaration? cs = some rest) :
    rest.length ≤ cs.length := by
  have cutCase : ∀ mark inner, (cut? mark inner).map Prod.snd = some rest →
      rest.length ≤ inner.length := by
    intro mark inner hc
    obtain ⟨⟨b, a⟩, hp, rfl⟩ := Option.map_eq_some_iff.mp hc
    have := length_of_cut? mark inner b a hp
    simp only
    omega
  unfold afterDeclaration? at h
  dsimp only at h
  split at h
  · have := cutCase _ _ h
    simp only [List.length_cons]
    omega
  · have := cutCase _ _ h
    simp only [List.length_cons]
    omega
  · split at h
    · split at h
      · simp at h
      · rename_i after heq
        simp only [Option.some.injEq] at h
        have := length_tagEnd none cs _ _ heq
        rw [← h]
        omega
    · exact cutCase _ _ h

/-- What follows a document type, read from inside its internal subset. -/
def afterSubset? : List Char → Option (List Char)
  | [] => none
  | ']' :: cs => (cut? ['>'] cs).map Prod.snd
  | '<' :: cs =>
    match h : afterDeclaration? cs with
    | none => none
    | some rest =>
      have : rest.length ≤ cs.length := length_afterDeclaration? cs rest h
      afterSubset? rest
  | _ :: cs => afterSubset? cs
termination_by cs => cs.length

/-- What follows a document type, read from before its internal subset. -/
def afterDoctype? (quote : Option Char) : List Char → Option (List Char)
  | [] => none
  | c :: cs =>
    match quote with
    | some q => afterDoctype? (if c = q then none else some q) cs
    | none =>
      if c = '>' then some cs
      else if c = '[' then afterSubset? cs
      else afterDoctype? (if isQuote c then some c else none) cs

/-- A document type, from after `<!`. Its keyword may be in either case. -/
def Step.ofDoctype (cs : List Char) : Step :=
  let word := ['D', 'O', 'C', 'T', 'Y', 'P', 'E']
  if (cs.take word.length).map Char.toUpper = word then
    let body := cs.drop word.length
    match body.dropWhile isBlank with
    | '>' :: _ => .fault (.nesting .namelessDoctype)
    | _ =>
      match afterDoctype? none body with
      | none => .fault (.markup .openDoctype)
      | some rest => .piece .aside rest
  else .fault (.markup .openDoctype)

/-- What begins with `<`, from after that character. -/
def Step.ofMarkup : List Char → Step
  | [] => .fault (.markup .openTag)
  | '?' :: cs => ofInstruction cs
  | '!' :: cs =>
    match cs with
    | '[' :: inner => ofCData inner
    | '-' :: inner => ofComment inner
    | 'D' :: _ => ofDoctype cs
    | 'd' :: _ => ofDoctype cs
    | _ => .fault (.markup .strayMarkup)
  | cs => ofTag cs

/-- A reference, from after `&`. Its name may be anything, even empty. -/
def Step.ofReference (cs : List Char) : Step :=
  match cs.dropWhile (fun c => !(c == ';' || c == '&' || c == '<')) with
  | ';' :: rest => .piece .aside rest
  | _ => .fault (.nesting .openReference)

def inText (c : Char) : Bool := !(c == '<' || c == '&')

def Step.ofText (cs : List Char) : Step :=
  match cs.dropWhile isBlank with
  | [] => .stop
  | '<' :: rest => ofMarkup rest
  | '&' :: rest => ofReference rest
  | c :: rest =>
    .piece (.text (String.ofList (dropEndWhile isBlank (c :: rest.takeWhile inText))))
      (rest.dropWhile inText)

end YangScript.Xml
