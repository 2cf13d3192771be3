import YangScript.Document.Load
import YangScript.Proofs.TreeReading

/-!
# Reading by descent

The machine of this library keeps the elements that are open in its state. Here each kind of element
has a handler of its own instead: it is called behind a start tag (then its element is filled) or
behind an empty tag, calls the handlers of the elements inside, and returns behind the end tag. A
handler tells, besides its result, what it leaves of the stream and what was done on the way.
-/

set_option autoImplicit false

namespace YangScript

open Xml

def Xml.Stream.length : Stream → Nat
  | .finished => 0
  | .fault _ => 0
  | .event _ rest => rest.length + 1

theorem Xml.Stream.length_after (es : List Event) (rest : Stream) :
    (after es rest).length = es.length + rest.length := by
  induction es with
  | nil => exact (Nat.zero_add _).symm
  | cons e es ih => rw [List.length_cons, Nat.add_right_comm, ← ih]; rfl

namespace Descent

/-- The handlers that can be entered while they are at work. -/
inductive Handler where
  | entry
  | type
  | skip
  deriving DecidableEq, Repr

/-- One item of a trace: a handler is entered, or the reader is called and gives an event, the end
of the document, or a fault. -/
inductive Mark where
  | enter (h : Handler)
  | read (e : Event)
  | ended
  | failed (f : Fault)

def Mark.event? : Mark → Option Event
  | read e => some e
  | _ => none

def Mark.isCall : Mark → Bool
  | enter _ => false
  | _ => true

/-- What came of a stream. What is gone from it was read, event by event. -/
structure Outcome (α : Type) (s : Stream) where
  result : Except LoadError α
  rest : Stream
  trace : List Mark
  used : .after (trace.filterMap Mark.event?) rest = s

namespace Outcome

variable {α β : Type} {s : Stream}

theorem length_used (o : Outcome α s) :
    (o.trace.filterMap Mark.event?).length + o.rest.length = s.length :=
  (Stream.length_after _ _).symm.trans (congrArg Stream.length o.used)

theorem shorter (o : Outcome α s) : o.rest.length ≤ s.length :=
  o.length_used ▸ Nat.le_add_left ..

/-- Nothing is read. -/
def keep (s : Stream) (result : Except LoadError α) : Outcome α s :=
  ⟨result, s, [], rfl⟩

def atEnd (result : Except LoadError α) : Outcome α .finished :=
  ⟨result, .finished, [.ended], rfl⟩

def atFault (f : Fault) : Outcome α (.fault f) :=
  ⟨.error (.markup f), .fault f, [.failed f], rfl⟩

/-- First an event is read. -/
def after (e : Event) (o : Outcome α s) : Outcome α (.event e s) :=
  ⟨o.result, o.rest, .read e :: o.trace, congrArg (Stream.event e) o.used⟩

def entering (h : Handler) (o : Outcome α s) : Outcome α s :=
  ⟨o.result, o.rest, .enter h :: o.trace, o.used⟩

theorem used_bind (first : Outcome α s) (second : Outcome β first.rest) :
    .after ((first.trace ++ second.trace).filterMap Mark.event?) second.rest = s := by
  rw [List.filterMap_append, Stream.after_append, second.used, first.used]

/-- Goes on behind what the first handler used, unless it failed. -/
def bind (first : Outcome α s)
    (next : α → (rest : Stream) → rest.length ≤ s.length → Outcome β rest) : Outcome β s :=
  match first.result with
  | .error e => ⟨.error e, first.rest, first.trace, first.used⟩
  | .ok a =>
    let second := next a first.rest first.shorter
    ⟨second.result, second.rest, first.trace ++ second.trace, used_bind first second⟩

/-- Goes on without reading. -/
def andThen (o : Outcome α s) (next : α → Except LoadError β) : Outcome β s :=
  ⟨o.result >>= next, o.rest, o.trace, o.used⟩

/-- What comes of the rest of the stream in the end. -/
def resume (o : Outcome α s) (next : α → Stream → Except LoadError β) : Except LoadError β :=
  o.result >>= fun a => next a o.rest

theorem bind_of_error {o : Outcome α s} {e : LoadError} (h : o.result = .error e)
    (next : α → (rest : Stream) → rest.length ≤ s.length → Outcome β rest) :
    o.bind next = ⟨.error e, o.rest, o.trace, o.used⟩ := by
  unfold bind
  split
  · rename_i e' he
    rw [h, Except.error.injEq] at he
    rw [he]
  · rename_i a ha
    exact absurd (h.symm.trans ha) (by simp)

theorem bind_of_ok {o : Outcome α s} {a : α} (h : o.result = .ok a)
    (next : α → (rest : Stream) → rest.length ≤ s.length → Outcome β rest) :
    o.bind next =
      ⟨(next a o.rest o.shorter).result, (next a o.rest o.shorter).rest,
        o.trace ++ (next a o.rest o.shorter).trace, used_bind o _⟩ := by
  unfold bind
  split
  · rename_i e he
    exact absurd (h.symm.trans he) (by simp)
  · rename_i a' ha
    rw [h, Except.ok.injEq] at ha
    subst ha
    rfl

/-- What goes on to success has succeeded before. -/
theorem ok_of_bind {o : Outcome α s}
    {next : α → (rest : Stream) → rest.length ≤ s.length → Outcome β rest} {b : β}
    (h : (o.bind next).result = .ok b) :
    ∃ a, o.result = .ok a ∧ (next a o.rest o.shorter).result = .ok b ∧
      (o.bind next).rest = (next a o.rest o.shorter).rest := by
  cases hresult : o.result with
  | error e =>
    rw [bind_of_error hresult] at h
    exact absurd h (by simp)
  | ok a =>
    rw [bind_of_ok hresult] at h ⊢
    exact ⟨a, rfl, h, rfl⟩

theorem ok_of_andThen {o : Outcome α s} {next : α → Except LoadError β} {b : β}
    (h : (o.andThen next).result = .ok b) : ∃ a, o.result = .ok a ∧ next a = .ok b := by
  have hresult : (o.result >>= next) = .ok b := h
  cases ho : o.result with
  | error e =>
    rw [ho] at hresult
    exact absurd hresult (by simp [Bind.bind, Except.bind])
  | ok a =>
    rw [ho] at hresult
    exact ⟨a, rfl, hresult⟩

end Outcome

open Outcome

/-! ## Loops -/

/-- Skips what is left of an element in which `depth` further elements are open. -/
def skipOpen : Nat → (s : Stream) → Outcome Unit s
  | _, .finished => atEnd (.ok ())
  | _, .fault f => atFault f
  | depth, .event (.start tag) rest => (skipOpen (depth + 1) rest).after (.start tag)
  | 0, .event .close rest => (keep rest (.ok ())).after .close
  | depth + 1, .event .close rest => (skipOpen depth rest).after .close
  | depth, .event (.empty tag) rest => (skipOpen depth rest).after (.empty tag)
  | depth, .event (.text t) rest => (skipOpen depth rest).after (.text t)
  | depth, .event .aside rest => (skipOpen depth rest).after .aside

def skipToEnd (s : Stream) : Outcome Unit s := (skipOpen 0 s).entering .skip

/-- Adds up the text directly inside an element. -/
def readText (text : String) : (s : Stream) → Outcome String s
  | .finished => atEnd (.ok text)
  | .fault f => atFault f
  | .event (.start tag) rest =>
    ((skipToEnd rest).bind fun _ behind _ => readText text behind).after (.start tag)
  | .event (.empty tag) rest => (readText text rest).after (.empty tag)
  | .event .close rest => (keep rest (.ok text)).after .close
  | .event (.text t) rest => (readText (text ++ Text.trim t) rest).after (.text t)
  | .event .aside rest => (readText text rest).after .aside
termination_by s => s.length
decreasing_by all_goals simp only [Stream.length]; omega

/-- A handler of the elements inside another one, for what is left of the stream. -/
abbrev ChildHandler (α : Type) (s : Stream) :=
  (tag : Tag) → (filled : Bool) → α → (rest : Stream) → rest.length < s.length → Outcome α rest

def ChildHandler.behind {α : Type} {s rest : Stream} {e : Event}
    (child : ChildHandler α (.event e s)) (h : rest.length ≤ s.length) : ChildHandler α rest :=
  fun tag filled a inner hinner =>
    child tag filled a inner (Nat.lt_succ_of_lt (Nat.lt_of_lt_of_le hinner h))

/-- Hands the elements inside an element to `child`, up to the end tag. -/
def body {α : Type} (unfinished : α → Unfinished) :
    (s : Stream) → ChildHandler α s → α → Outcome α s
  | .finished, _, a => atEnd (.error (.unfinished (unfinished a)))
  | .fault f, _, _ => atFault f
  | .event (.start tag) rest, child, a =>
    ((child tag true a rest (Nat.lt_succ_self _)).bind fun a behind h =>
      body unfinished behind (child.behind h) a).after (.start tag)
  | .event (.empty tag) rest, child, a =>
    ((child tag false a rest (Nat.lt_succ_self _)).bind fun a behind h =>
      body unfinished behind (child.behind h) a).after (.empty tag)
  | .event .close rest, _, a => (keep rest (.ok a)).after .close
  | .event (.text t) rest, child, a =>
    (body unfinished rest (child.behind (Nat.le_refl _)) a).after (.text t)
  | .event .aside rest, child, a =>
    (body unfinished rest (child.behind (Nat.le_refl _)) a).after .aside
termination_by s => s.length
decreasing_by all_goals simp only [Stream.length]; omega

/-! ## Handlers -/

/-- An element that means nothing where it stands. -/
def skipElement (filled : Bool) (s : Stream) : Outcome Unit s :=
  if filled then skipToEnd s else keep s (.ok ())

/-- An element whose tag gives a value and whose content changes it. -/
def element {α : Type} (h : Handler) (head : Except LoadError α) (filled : Bool) (s : Stream)
    (content : α → Outcome α s) : Outcome α s :=
  entering h <|
    match head with
    | .error e => keep s (.error e)
    | .ok a => if filled then content a else keep s (.ok a)

-- An element is read by its handler on the same stream, so `typeChild` stands one above `readType`;
-- what is inside the element stands behind its tag, so there the stream is shorter.
mutual

def readType (tag : Tag) (filled : Bool) (s : Stream) : Outcome LeafType s :=
  element .type (LeafType.ofTag tag) filled s
    (body (fun t => .type t.name) s fun tag filled t rest _ => typeChild tag filled t rest)
termination_by 2 * s.length

def typeChild (tag : Tag) (filled : Bool) (t : LeafType) (s : Stream) : Outcome LeafType s :=
  if tag.name = "type" then
    (readType tag filled s).andThen fun member => .ok { t with members := t.members ++ [member] }
  else
    match State.attachMember t tag with
    | .error e => keep s (.error e)
    | .ok t => (skipElement filled s).andThen fun _ => .ok t
termination_by 2 * s.length + 1

end

def typeBody (t : LeafType) (s : Stream) : Outcome LeafType s :=
  body (fun t => .type t.name) s (fun tag filled t rest _ => typeChild tag filled t rest) t

theorem readType_eq (tag : Tag) (filled : Bool) (s : Stream) :
    readType tag filled s =
      element .type (LeafType.ofTag tag) filled s (fun t => typeBody t s) := by
  rw [readType]
  rfl

/-- An entry takes each of its children once. -/
def takeChild (e child : Entry) : Except LoadError Entry :=
  if (e.child? child.name).isSome then .error (.duplicateEntry e.name child.name)
  else .ok (e.insert child)

def takeType (e : Entry) (t : LeafType) : Except LoadError Entry :=
  if e.leafType.isSome then .error (.duplicateType e.name)
  else .ok { e with leafType := some t }

mutual

/-- The entry of an element that stands for `bare`. -/
def readEntry (bare : Entry) (tag : Tag) (filled : Bool) (s : Stream) : Outcome Entry s :=
  element .entry (Entry.ofTag bare tag) filled s
    (body (fun e => .entry tag.name e.name) s fun tag filled e rest _ =>
      entryChild tag filled e rest)
termination_by 2 * s.length

def entryChild (tag : Tag) (filled : Bool) (e : Entry) (s : Stream) : Outcome Entry s :=
  if tag.name = "type" then (readType tag filled s).andThen (takeType e)
  else
    match Entry.ofElement? tag.name with
    | some bare => (readEntry bare tag filled s).andThen (takeChild e)
    | none => (skipElement filled s).andThen fun _ => .ok e
termination_by 2 * s.length + 1

end

def entryBody (element : String) (e : Entry) (s : Stream) : Outcome Entry s :=
  body (fun e => .entry element e.name) s (fun tag filled e rest _ => entryChild tag filled e rest)
    e

theorem readEntry_eq (bare : Entry) (tag : Tag) (filled : Bool) (s : Stream) :
    readEntry bare tag filled s =
      element .entry (Entry.ofTag bare tag) filled s (fun e => entryBody tag.name e s) := by
  rw [readEntry]
  rfl

/-- The date of a revision: what its attribute gives, or else its text. -/
def dateOf (date : Option String) (text : String) : Except LoadError String :=
  match date with
  | some d => .ok d
  | none => if text = "" then .error (.missingAttribute "revision" "date") else .ok text

def readRevision (tag : Tag) (filled : Bool) (s : Stream) : Outcome String s :=
  match revisionDate tag with
  | .error e => keep s (.error e)
  | .ok date => (if filled then readText "" s else keep s (.ok "")).andThen (dateOf date)

def takeEntry (m : Module) (e : Entry) : Except LoadError Module :=
  if (m.child? e.name).isSome then .error (.duplicateEntry m.name e.name)
  else .ok (m.insert e)

def moduleChild (tag : Tag) (filled : Bool) (m : Module) (s : Stream) : Outcome Module s :=
  if tag.name = "revision" then
    (readRevision tag filled s).andThen fun date =>
      .ok { m with revisions := m.revisions ++ [date] }
  else
    match Entry.ofElement? tag.name with
    | some bare => (readEntry bare tag filled s).andThen (takeEntry m)
    | none => (skipElement filled s).andThen fun _ => .ok m

def moduleBody (m : Module) (s : Stream) : Outcome Module s :=
  body (fun m => .module m.name) s (fun tag filled m rest _ => moduleChild tag filled m rest) m

/-- Looks for the first module element and reads it. -/
def readModule : (s : Stream) → Outcome Module s
  | .finished => atEnd (.error .noModule)
  | .fault f => atFault f
  | .event (.start tag) rest =>
    (if isModuleTag tag.name then
      match Module.ofTag tag with
      | .error e => keep rest (.error e)
      | .ok m => moduleBody m rest
    else readModule rest).after (.start tag)
  | .event (.empty tag) rest =>
    (if isModuleTag tag.name then keep rest (Module.ofTag tag)
    else readModule rest).after (.empty tag)
  | .event .close rest => (readModule rest).after .close
  | .event (.text t) rest => (readModule rest).after (.text t)
  | .event .aside rest => (readModule rest).after .aside

/-! ## What all handlers share -/

/-- Properties of what comes of an element (`child`), of an element with a handler of its own
(`own`) and of the inside of such an element (`inside`), as they follow from each other. -/
structure Inherited (child own : Bool → ∀ {α : Type} {s : Stream}, Outcome α s → Prop)
    (inside : ∀ {α : Type} {s : Stream}, Outcome α s → Prop) : Prop where
  refused : ∀ {α : Type} (filled : Bool) (s : Stream) (e : LoadError),
    child filled (keep s (.error e : Except LoadError α))
  kept : ∀ {α : Type} (s : Stream) (a : α), child false (keep s (.ok a))
  skip : ∀ s, child true (skipToEnd s)
  text : ∀ s, child true (readText "" s)
  andThen : ∀ {α β : Type} {filled : Bool} {s : Stream} {o : Outcome α s}, child filled o →
    ∀ f : α → Except LoadError β, child filled (o.andThen f)
  ofOwn : ∀ {α : Type} {filled : Bool} {s : Stream} {o : Outcome α s}, own filled o → child filled o
  element : ∀ {α : Type} (h : Handler) (head : Except LoadError α) (filled : Bool) {s : Stream}
    {content : α → Outcome α s}, (∀ a, inside (content a)) →
      own filled (element h head filled s content)
  body : ∀ {α : Type} (unfinished : α → Unfinished) {s : Stream} (handler : ChildHandler α s),
    (∀ tag filled a rest hrest, child filled (handler tag filled a rest hrest)) →
      ∀ a, inside (body unfinished s handler a)

namespace Inherited

variable {child own : Bool → ∀ {α : Type} {s : Stream}, Outcome α s → Prop}
  {inside : ∀ {α : Type} {s : Stream}, Outcome α s → Prop} (h : Inherited child own inside)

include h

theorem skipElement (filled : Bool) (s : Stream) : child filled (skipElement filled s) := by
  cases filled with
  | true => exact h.skip s
  | false => exact h.kept s ()

theorem typeChild (tag : Tag) (filled : Bool) (t : LeafType) (s : Stream) :
    child filled (typeChild tag filled t s) := by
  -- on the stream: a type inside a type is read from what is left behind its tag
  induction hn : s.length using Nat.strongRecOn generalizing tag filled t s with
  | ind n ih =>
    rw [Descent.typeChild]
    split
    · have hbody : ∀ t, inside (typeBody t s) := h.body _ _ fun tag filled t rest hrest =>
        ih rest.length (hn ▸ hrest) tag filled t rest rfl
      rw [readType_eq]
      exact h.andThen (h.ofOwn (h.element _ _ _ hbody)) _
    · split
      · exact h.refused filled s _
      · exact h.andThen (h.skipElement filled s) _

theorem typeBody (t : LeafType) (s : Stream) : inside (typeBody t s) :=
  h.body _ _ (fun tag filled t rest _ => h.typeChild tag filled t rest) t

theorem readType (tag : Tag) (filled : Bool) (s : Stream) : own filled (readType tag filled s) := by
  rw [readType_eq]
  exact h.element _ _ _ fun t => h.typeBody t s

theorem entryChild (tag : Tag) (filled : Bool) (e : Entry) (s : Stream) :
    child filled (entryChild tag filled e s) := by
  induction hn : s.length using Nat.strongRecOn generalizing tag filled e s with
  | ind n ih =>
    rw [Descent.entryChild]
    split
    · exact h.andThen (h.ofOwn (h.readType tag filled s)) _
    · split
      · have hbody : ∀ e, inside (entryBody tag.name e s) := h.body _ _
          fun tag filled e rest hrest => ih rest.length (hn ▸ hrest) tag filled e rest rfl
        rw [readEntry_eq]
        exact h.andThen (h.ofOwn (h.element _ _ _ hbody)) _
      · exact h.andThen (h.skipElement filled s) _

theorem entryBody (element : String) (e : Entry) (s : Stream) : inside (entryBody element e s) :=
  h.body _ _ (fun tag filled e rest _ => h.entryChild tag filled e rest) e

theorem readEntry (bare : Entry) (tag : Tag) (filled : Bool) (s : Stream) :
    own filled (readEntry bare tag filled s) := by
  rw [readEntry_eq]
  exact h.element _ _ _ fun e => h.entryBody tag.name e s

theorem readRevision (tag : Tag) (filled : Bool) (s : Stream) :
    child filled (readRevision tag filled s) := by
  rw [Descent.readRevision]
  split
  · exact h.refused filled s _
  · cases filled with
    | true => exact h.andThen (h.text s) _
    | false => exact h.andThen (h.kept s "") _

theorem moduleChild (tag : Tag) (filled : Bool) (m : Module) (s : Stream) :
    child filled (moduleChild tag filled m s) := by
  rw [Descent.moduleChild]
  split
  · exact h.andThen (h.readRevision tag filled s) _
  · split
    · exact h.andThen (h.ofOwn (h.readEntry _ tag filled s)) _
    · exact h.andThen (h.skipElement filled s) _

theorem moduleBody (m : Module) (s : Stream) : inside (moduleBody m s) :=
  h.body _ _ (fun tag filled m rest _ => h.moduleChild tag filled m rest) m

end Inherited

end Descent

end YangScript
