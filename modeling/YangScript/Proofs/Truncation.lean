import YangScript.Proofs.Prompt
import YangScript.Proofs.Rejection

/-!
# Only the first module element matters, and all of it does

The end of the first module element is found by counting tags, whatever they hold. A document that
is accepted stays accepted, with the same module, if all that stands behind that end is replaced
by any other text, and no document that stops before that end is accepted.
-/

set_option autoImplicit false

namespace YangScript

open Xml Text

/-- Where a position stands: before the first module element, inside it below some further open
elements, or behind it. -/
inductive Span where
  | before
  | within (depth : Nat)
  | behind

namespace Span

def next : Span → Piece → Span
  | before, .start tag => if isModuleTag tag.name then within 0 else before
  | before, .empty tag => if isModuleTag tag.name then behind else before
  | before, _ => before
  | within depth, .start _ => within (depth + 1)
  | within 0, .close _ => behind
  | within (depth + 1), .close _ => within depth
  | within depth, _ => within depth
  | behind, _ => behind

/-- What follows the first module element. -/
def after? (s : Span) (cs : List Char) : Option (List Char) :=
  match s with
  | behind => some cs
  | _ =>
    match h : Step.ofText cs with
    | .piece p rest =>
      have : rest.length < cs.length := Step.within_ofText cs p rest h
      after? (s.next p) rest
    | _ => none
termination_by cs.length

theorem after?_behind (cs : List Char) : after? behind cs = some cs := by
  rw [after?]

def ofStep (s : Span) : Step → Option (List Char)
  | .piece p rest => (s.next p).after? rest
  | _ => none

theorem after?_eq {s : Span} (hs : s ≠ behind) (cs : List Char) :
    s.after? cs = s.ofStep (Step.ofText cs) := by
  rw [after?.eq_def]
  split
  · exact absurd rfl hs
  · split
    · rename_i p rest h
      exact (congrArg s.ofStep h).symm
    · rename_i hno
      cases h : Step.ofText cs with
      | piece p rest => exact absurd h (hno p rest)
      | stop => rfl
      | fault f => rfl

theorem next_text (s : Span) (text : String) : s.next (.text text) = s := by
  cases s with
  | before => rfl
  | behind => rfl
  | within depth => cases depth <;> rfl

/-- Text before markup does not matter. -/
theorem after?_chars {s : Span} (hs : s ≠ behind) (t : CharData) {rest : List Char}
    (h : EndsText rest) : s.after? (t.chars ++ rest) = s.after? rest := by
  rw [after?_eq hs]
  rcases t.step_chars rest h with ⟨-, hstep⟩ | ⟨text, -, hstep⟩
  · rw [hstep, ← after?_eq hs]
  · rw [hstep, ofStep, next_text]

end Span

/-- How many elements are open below the module element at a place. -/
def Place.depth : Place → Nat
  | .entries path => path.length
  | .type _ outer _ path => path.length + outer.length + 2
  | .revision _ _ => 1

namespace State

def span : State → Span
  | waiting => .before
  | inside _ place skipped => .within (place.depth + skipped)
  | complete _ => .behind

/-- What a piece does to the open tags and to the state. -/
def take (opened : List String) (s : State) : Piece → Except LoadError (List String × State)
  | .start tag => (s.step (.start tag)).map (fun next => (tag.name :: opened, next))
  | .empty tag => (s.step (.empty tag)).map (fun next => (opened, next))
  | .text text => (s.step (.text text)).map (fun next => (opened, next))
  | .aside => (s.step .aside).map (fun next => (opened, next))
  | .close name =>
    match opened with
    | [] => .error (.markup (.nesting (.strayEnd name)))
    | expected :: outer =>
      if name = expected then (s.step .close).map (fun next => (outer, next))
      else .error (.markup (.nesting (.mismatchedEnd expected name)))

theorem run_finished {s : State} (hs : s.span ≠ .behind) : run .finished s = s.finish := by
  cases s with
  | complete m => exact absurd rfl hs
  | waiting => rfl
  | inside m place skipped => rfl

theorem run_fault {s : State} (hs : s.span ≠ .behind) (f : Fault) :
    run (.fault f) s = .error (.markup f) := by
  cases s with
  | complete m => exact absurd rfl hs
  | waiting => rfl
  | inside m place skipped => rfl

theorem run_piece {s : State} (hs : s.span ≠ .behind) {opened : List String} {cs rest : List Char}
    {p : Piece} (h : Step.ofText cs = .piece p rest) :
    run (Stream.ofText opened cs) s =
      take opened s p >>= fun next => run (Stream.ofText next.1 rest) next.2 := by
  have hevent : ∀ (e : Event) (names : List String),
      run (.event e (Stream.ofText names rest)) s =
        (s.step e).map (fun next => (names, next)) >>=
          fun next => run (Stream.ofText next.1 rest) next.2 := by
    intro e names
    rw [run_event]
    cases s.step e <;> rfl
  rw [Stream.ofText_eq_ofStep, h]
  cases p with
  | start tag => exact hevent _ _
  | empty tag => exact hevent _ _
  | text text => exact hevent _ _
  | aside => exact hevent _ _
  | close name =>
    cases opened with
    | nil => exact run_fault hs _
    | cons expected outer =>
      by_cases hn : name = expected
      · simp only [Stream.ofStep, take, hn, if_true]
        exact hevent _ _
      · simp only [Stream.ofStep, take, hn, if_false]
        exact run_fault hs _

/-- Every state that comes of a step has a certain span. -/
def Reaches (sp : Span) (x : Except LoadError State) : Prop :=
  ∀ next, x = .ok next → next.span = sp

theorem reaches_ok {sp : Span} {s : State} (h : s.span = sp) : Reaches sp (.ok s) := by
  intro next hn
  rw [← Except.ok.inj hn]
  exact h

theorem reaches_error (sp : Span) (e : LoadError) : Reaches sp (.error e) := by
  intro next hn
  simp at hn

theorem reaches_bind {α : Type} {sp : Span} {x : Except LoadError α}
    {f : α → Except LoadError State} (h : ∀ a, Reaches sp (f a)) : Reaches sp (x >>= f) := by
  cases x with
  | error e => exact reaches_error sp e
  | ok a => exact h a

theorem reaches_openAmongEntries (m : Module) (path : List OpenEntry) (tag : Tag) :
    Reaches (.within (path.length + 1)) (openAmongEntries m path tag) := by
  unfold openAmongEntries
  split
  · exact reaches_bind fun date => reaches_ok rfl
  · exact reaches_bind fun t => reaches_ok rfl
  · split
    · exact reaches_ok rfl
    · exact reaches_bind fun e => reaches_ok rfl

theorem reaches_start (s : State) (tag : Tag) :
    Reaches (s.span.next (.start tag)) (s.step (.start tag)) := by
  cases s with
  | complete m => exact reaches_ok rfl
  | waiting =>
    simp only [step, stepWaiting, span, Span.next]
    split
    · exact reaches_bind fun m => reaches_ok rfl
    · exact reaches_ok rfl
  | inside m place skipped =>
    cases skipped with
    | succ depth => exact reaches_ok rfl
    | zero =>
      cases place with
      | revision date text => exact reaches_ok rfl
      | entries path => exact reaches_openAmongEntries m path tag
      | type t outer owner path =>
        simp only [step, stepPlace, stepType]
        split
        · exact reaches_bind fun inner => reaches_ok rfl
        · exact reaches_bind fun t => reaches_ok rfl

theorem reaches_attachEntry (m : Module) (path : List OpenEntry) (e : Entry) :
    Reaches (.within path.length) (attachEntry m path e) := by
  unfold attachEntry
  split
  · split
    · exact reaches_error _ _
    · exact reaches_ok rfl
  · split
    · exact reaches_error _ _
    · exact reaches_ok rfl

theorem reaches_close (s : State) (name : String) :
    Reaches (s.span.next (.close name)) (s.step .close) := by
  cases s with
  | complete m => exact reaches_ok rfl
  | waiting => exact reaches_ok rfl
  | inside m place skipped =>
    cases skipped with
    | succ depth => exact reaches_ok rfl
    | zero =>
      cases place with
      | revision date text => exact reaches_bind fun m => reaches_ok rfl
      | entries path =>
        cases path with
        | nil => exact reaches_ok rfl
        | cons o outer => exact reaches_attachEntry m outer o.entry
      | type t outer owner path =>
        cases outer with
        | cons around rest => exact reaches_ok rfl
        | nil =>
          simp only [step, stepPlace, stepType, attachType]
          split
          · exact reaches_error _ _
          · exact reaches_ok rfl

theorem reaches_empty (s : State) (tag : Tag) :
    Reaches (s.span.next (.empty tag)) (s.step (.empty tag)) := by
  have hnext : s.span.next (.empty tag) = (s.span.next (.start tag)).next (.close tag.name) := by
    cases s.span with
    | behind => rfl
    | within depth => cases depth <;> rfl
    | before =>
      simp only [Span.next]
      split <;> rfl
  rw [step_empty, hnext]
  intro next hn
  cases hstart : s.step (.start tag) with
  | error e =>
    rw [hstart] at hn
    exact absurd hn (by simp [bind, Except.bind])
  | ok begun =>
    rw [hstart] at hn
    rw [← reaches_start s tag begun hstart]
    exact reaches_close begun tag.name next hn

theorem exists_step_text (s : State) (text : String) :
    ∃ next, s.step (.text text) = .ok next ∧ next.span = s.span := by
  cases s with
  | complete m => exact ⟨_, rfl, rfl⟩
  | waiting => exact ⟨_, rfl, rfl⟩
  | inside m place skipped =>
    cases skipped with
    | succ depth => exact ⟨_, rfl, rfl⟩
    | zero => cases place <;> exact ⟨_, rfl, rfl⟩

theorem reaches_aside (s : State) : Reaches (s.span.next .aside) (s.step .aside) := by
  cases s with
  | complete m => exact reaches_ok rfl
  | waiting => exact reaches_ok rfl
  | inside m place skipped =>
    cases skipped with
    | succ depth => exact reaches_ok rfl
    | zero => cases place <;> exact reaches_ok rfl

/-- The state follows the span of the text that is read. -/
theorem span_take {opened names : List String} {s next : State} {p : Piece}
    (h : take opened s p = .ok (names, next)) : next.span = s.span.next p := by
  have hmap : ∀ {x : Except LoadError State} {names' : List String},
      x.map (fun next => (names', next)) = .ok (names, next) → x = .ok next := by
    intro x names' hx
    cases x with
    | error e => exact absurd hx (by simp [Except.map])
    | ok state =>
      rw [(Prod.mk.inj (Except.ok.inj hx)).2]
  cases p with
  | start tag => exact reaches_start s tag next (hmap h)
  | empty tag => exact reaches_empty s tag next (hmap h)
  | aside => exact reaches_aside s next (hmap h)
  | text text =>
    obtain ⟨state, hstep, hspan⟩ := exists_step_text s text
    have hsame : state = next := Except.ok.inj (hstep.symm.trans (hmap h))
    rw [Span.next_text, ← hsame]
    exact hspan
  | close name =>
    cases opened with
    | nil => simp [take] at h
    | cons expected outer =>
      rw [take] at h
      split at h
      · exact reaches_close s name next (hmap h)
      · simp at h

theorem exists_advance_text (t : CharData) (s : State) :
    ∃ next, advance t.events s = .ok next ∧ next.span = s.span := by
  unfold CharData.events
  split
  · exact ⟨s, rfl, rfl⟩
  · rename_i c cs _
    obtain ⟨next, hstep, hspan⟩ :=
      exists_step_text s (String.ofList (dropEndWhile isBlank (c :: cs)))
    refine ⟨next, ?_, hspan⟩
    rw [advance_cons, hstep]
    rfl

/-- A document that ends before its module does is refused. -/
theorem exists_finish {s : State} (hs : s.span ≠ .behind) : ∃ e, s.finish = .error e := by
  cases s with
  | complete m => exact absurd rfl hs
  | waiting => exact ⟨_, rfl⟩
  | inside m place skipped =>
    cases place with
    | type t outer owner path => exact ⟨_, rfl⟩
    | entries path => cases path <;> exact ⟨_, rfl⟩
    | revision date text =>
      simp only [finish]
      cases attachRevision m date text with
      | error e => exact ⟨e, rfl⟩
      | ok m => exact ⟨_, rfl⟩

/-- Where no piece can be read, the module is not finished. -/
theorem exists_error_of_no_piece {s : State} (hs : s.span ≠ .behind) {cs : List Char}
    (h : ∀ p rest, Step.ofText cs ≠ .piece p rest) (opened : List String) :
    ∃ e, run (Stream.ofText opened cs) s = .error e := by
  rw [Stream.ofText_eq_ofStep]
  cases hstep : Step.ofText cs with
  | piece p rest => exact absurd hstep (h p rest)
  | fault f => exact ⟨_, run_fault hs f⟩
  | stop =>
    obtain ⟨e, he⟩ := exists_finish hs
    exact ⟨e, (run_finished hs).trans he⟩

theorem exists_piece_of_run {s : State} (hs : s.span ≠ .behind) {opened : List String}
    {cs : List Char} {m : Module} (h : run (Stream.ofText opened cs) s = .ok m) :
    ∃ p rest, Step.ofText cs = .piece p rest := by
  cases hstep : Step.ofText cs with
  | piece p rest => exact ⟨p, rest, rfl⟩
  | stop =>
    have hno : ∀ p rest, Step.ofText cs ≠ .piece p rest := by simp [hstep]
    obtain ⟨e, he⟩ := exists_error_of_no_piece hs hno opened
    exact absurd (h.symm.trans he) (by simp)
  | fault f =>
    have hno : ∀ p rest, Step.ofText cs ≠ .piece p rest := by simp [hstep]
    obtain ⟨e, he⟩ := exists_error_of_no_piece hs hno opened
    exact absurd (h.symm.trans he) (by simp)

/-- From `s` on, the text `used` makes a module, whatever follows, and nothing shorter does. -/
structure Decisive (opened : List String) (s : State) (m : Module) (used : List Char) : Prop where
  enough : ∀ more, run (Stream.ofText opened (used ++ more)) s = .ok m
  needed : ∀ cut, cut <+: used → cut ≠ used →
    ∃ e, run (Stream.ofText opened cut) s = .error e

theorem decisive_complete (opened : List String) (m : Module) :
    Decisive opened (complete m) m [] where
  enough _ := run_complete _ m
  needed _ hp hne := absurd (List.prefix_nil.mp hp) hne

theorem prefix_append_cases {cut front back : List Char} (h : cut <+: front ++ back) :
    cut <+: front ∧ cut ≠ front ∨ ∃ cut', cut = front ++ cut' ∧ cut' <+: back := by
  rcases List.prefix_or_prefix_of_prefix h (List.prefix_append front back) with hp | ⟨cut', rfl⟩
  · by_cases he : cut = front
    · exact Or.inr ⟨[], by simpa using he, List.nil_prefix⟩
    · exact Or.inl ⟨hp, he⟩
  · exact Or.inr ⟨cut', rfl, (List.prefix_append_right_inj front).mp h⟩

/-- A piece of markup before what is decisive for the rest. -/
theorem Decisive.piece {s next : State} (hs : s.span ≠ .behind) {opened names : List String}
    {p : Piece} {first used : List Char} {m : Module}
    (hfirst : BeginsMarkup first ∧ Step.ofText first = .piece p [])
    (htake : take opened s p = .ok (names, next)) (h : Decisive names next m used) :
    Decisive opened s m (first ++ used) := by
  have hrun : ∀ more, run (Stream.ofText opened (first ++ more)) s =
      run (Stream.ofText names more) next := by
    intro more
    rw [run_piece hs (prompt_markup.unread hfirst more).2, htake]
    rfl
  constructor
  · intro more
    rw [List.append_assoc, hrun]
    exact h.enough more
  · intro cut hp hne
    rcases prefix_append_cases hp with ⟨hshort, hproper⟩ | ⟨cut', rfl, hp'⟩
    · exact exists_error_of_no_piece hs (not_piece_of_beginning hfirst hshort hproper) opened
    · rw [hrun]
      exact h.needed cut' hp' (fun he => hne (by rw [he]))

/-- Text before what is decisive for the rest. -/
theorem Decisive.text {s next : State} (hs : s.span ≠ .behind) {opened : List String}
    (t : CharData) {used : List Char} {m : Module} (hused : BeginsMarkup used)
    (hnext : advance t.events s = .ok next) (h : Decisive opened next m used) :
    Decisive opened s m (t.chars ++ used) := by
  have hrun : ∀ more, EndsText more → run (Stream.ofText opened (t.chars ++ more)) s =
      run (Stream.ofText opened more) next := by
    intro more hmore
    rw [t.ofText_chars opened more hmore, run_after, hnext]
    rfl
  constructor
  · intro more
    rw [List.append_assoc, hrun _ (hused.append more).endsText]
    exact h.enough more
  · intro cut hp hne
    rcases prefix_append_cases hp with ⟨hshort, -⟩ | ⟨cut', rfl, hp'⟩
    · let t' : CharData := ⟨cut, fun c hc => t.legal c (hshort.subset hc)⟩
      obtain ⟨next', hnext', hspan⟩ := exists_advance_text t' s
      have hread := t'.ofText_chars opened [] endsText_nil
      rw [List.append_nil] at hread
      rw [hread, run_after, hnext']
      have hno : ∀ p rest, Step.ofText [] ≠ .piece p rest := by simp [Step.ofText]
      exact exists_error_of_no_piece (hspan ▸ hs) hno opened
    · have hends : EndsText cut' := by
        cases cut' with
        | nil => exact endsText_nil
        | cons c cs =>
          obtain ⟨more, rfl⟩ := hp'
          exact hused.endsText
      rw [hrun cut' hends]
      exact h.needed cut' hp' (fun he => hne (by rw [he]))

/-- An accepting run is decided by the text up to the end of the module element. -/
theorem decisive_of_run (cs : List Char) (opened : List String) (s : State) (m : Module)
    (h : run (Stream.ofText opened cs) s = .ok m) :
    ∃ used rest, cs = used ++ rest ∧ s.span.after? cs = some rest ∧ Decisive opened s m used := by
  induction hn : cs.length using Nat.strongRecOn generalizing cs opened s with
  | ind n ih =>
    by_cases hs : s.span = .behind
    · cases s with
      | waiting => simp [span] at hs
      | inside m' place skipped => simp [span] at hs
      | complete m' =>
        rw [run_complete] at h
        rw [Except.ok.inj h]
        exact ⟨[], cs, rfl, Span.after?_behind cs, decisive_complete opened m⟩
    · obtain ⟨t, tail, rfl, htail⟩ := exists_charData cs
      obtain ⟨next, hnext, hspan⟩ := exists_advance_text t s
      have hs' : next.span ≠ .behind := hspan ▸ hs
      have hends : EndsText tail := by
        rcases htail with rfl | hbegins
        · exact endsText_nil
        · exact hbegins.endsText
      rw [t.ofText_chars opened tail hends, run_after, hnext] at h
      change run (Stream.ofText opened tail) next = .ok m at h
      obtain ⟨p, rest, hstep⟩ := exists_piece_of_run hs' h
      have hbegins : BeginsMarkup tail := by
        rcases htail with rfl | hbegins
        · simp [Step.ofText] at hstep
        · exact hbegins
      obtain ⟨first, rfl, hfirst⟩ := prompt_markup.exact ⟨hbegins, hstep⟩
      rw [run_piece hs' hstep] at h
      cases htake : take opened next p with
      | error e =>
        rw [htake] at h
        exact absurd h (by simp [bind, Except.bind])
      | ok taken =>
        rw [htake] at h
        have hshorter : rest.length < n := by
          have hwithin := Step.within_ofText _ p rest hstep
          rw [← hn, List.length_append]
          omega
        obtain ⟨used, rest', rfl, hafter, hdecisive⟩ :=
          ih rest.length hshorter rest taken.1 taken.2 h rfl
        refine ⟨t.chars ++ (first ++ used), rest', by simp, ?_, ?_⟩
        · rw [Span.after?_chars hs t hends, Span.after?_eq hs, hstep, Span.ofStep, ← hspan,
            ← span_take htake]
          exact hafter
        · have hpiece := hdecisive.piece hs' hfirst htake
          exact Decisive.text hs t (hfirst.1.append used) hnext hpiece

end State

theorem dropMark_of_head {cs : List Char} (h : cs.head? ≠ some '\uFEFF') : dropMark cs = cs := by
  unfold dropMark
  split
  · simp at h
  · rfl

theorem dropMark_cases (cs : List Char) :
    cs = '\uFEFF' :: dropMark cs ∨ cs.head? ≠ some '\uFEFF' ∧ dropMark cs = cs := by
  by_cases h : cs.head? = some '\uFEFF'
  · obtain ⟨tail, rfl⟩ := List.head?_eq_some_iff.mp h
    exact Or.inl rfl
  · exact Or.inr ⟨h, dropMark_of_head h⟩

/-- What is decisive for a document, with the byte order mark that may stand before it. -/
theorem exists_front {cs used rest : List Char} (hne : used ≠ []) (h : dropMark cs = used ++ rest) :
    ∃ front, cs = front ++ rest ∧ (∀ more, dropMark (front ++ more) = used ++ more) ∧
      ∀ cut, cut <+: front → cut ≠ front → dropMark cut <+: used ∧ dropMark cut ≠ used := by
  rcases dropMark_cases cs with hcs | ⟨hhead, hcs⟩
  · refine ⟨'\uFEFF' :: used, by rw [hcs, h]; rfl, fun more => rfl, fun cut hp hcut => ?_⟩
    cases cut with
    | nil => exact ⟨List.nil_prefix, fun he => hne he.symm⟩
    | cons c cut =>
      obtain ⟨rfl, htail⟩ := List.cons_prefix_cons.mp hp
      exact ⟨htail, fun he => hcut (congrArg (List.cons _) he)⟩
  · rw [hcs] at h
    obtain ⟨c, cs', rfl⟩ := List.exists_cons_of_ne_nil hne
    have hc : c ≠ '\uFEFF' := by
      intro he
      rw [h, he] at hhead
      exact hhead rfl
    have hkeep : ∀ tail, dropMark (c :: tail) = c :: tail := by
      intro tail
      refine dropMark_of_head fun he => hc ?_
      exact Option.some.inj he
    refine ⟨c :: cs', h, fun more => hkeep _, fun cut hp hcut => ?_⟩
    cases cut with
    | nil => exact ⟨List.nil_prefix, fun he => hne he.symm⟩
    | cons d cut =>
      obtain ⟨rfl, -⟩ := List.cons_prefix_cons.mp hp
      rw [hkeep]
      exact ⟨hp, hcut⟩

/-- Let `front` be an accepted document up to the end of its first module element. Whatever stands
behind it, the answer is the same, and no document that breaks off before that end is accepted. -/
theorem accepted_up_to_module_end (d : String) (m : Module) (h : Module.ofDocument d = .ok m) :
    ∃ front rest, d.toList = front ++ rest ∧
      Span.before.after? (dropMark d.toList) = some rest ∧
      (∀ cut, cut <+: front → cut ≠ front →
        ∃ e, Module.ofDocument (String.ofList cut) = .error e) ∧
      ∀ s : String, Module.ofDocument (String.ofList front ++ s) = .ok m := by
  obtain ⟨used, rest, hsplit, hafter, hdecisive⟩ :=
    State.decisive_of_run (dropMark d.toList) [] .waiting m h
  have hne : used ≠ [] := by
    rintro rfl
    have hwaiting : State.waiting.span ≠ .behind := by simp [State.span]
    obtain ⟨p, rest, hstep⟩ := State.exists_piece_of_run hwaiting (hdecisive.enough [])
    simp [Step.ofText] at hstep
  obtain ⟨front, hfront, hmore, hcut⟩ := exists_front hne hsplit
  refine ⟨front, rest, hfront, hafter, ?_, ?_⟩
  · intro cut hp hproper
    obtain ⟨hp', hproper'⟩ := hcut cut hp hproper
    rw [Module.ofDocument, Stream.ofDocument, String.toList_ofList]
    exact hdecisive.needed _ hp' hproper'
  · intro s
    rw [Module.ofDocument, Stream.ofDocument, String.toList_append, String.toList_ofList, hmore]
    exact hdecisive.enough s.toList

theorem accepted_up_to_module_end_bare :
    ∃ (d : Document) (m : Module), d.text = "<module name=\"m\"/> and more" ∧
      Module.ofDocument d.text = .ok m ∧
      ∃ front rest, d.text.toList = front ++ rest ∧
        Span.before.after? (dropMark d.text.toList) = some rest ∧
        ∀ s : String, Module.ofDocument (String.ofList front ++ s) = .ok m := by
  let name : AttributeText :=
    { lead := .space, apart := by simp [Blanks.space], key := .ofString "name" (by decide),
      before := .none, after := .none, quote := '"', quoting := rfl, value := ['m'],
      closed := by decide }
  let tag : TagText := ⟨.ofString "module" (by decide), [name], by simp, .none⟩
  let d : Document :=
    { marked := false
      content := .next .none (.empty tag) (.last ⟨" and more".toList, List.all_eq_true.mp rfl⟩)
      unmarked := by decide }
  have hfirst : d.content.firstModule? = some (.empty tag) := rfl
  have hviolations : (Node.empty tag).moduleViolations = [] := rfl
  have h : Module.ofDocument d.text = .ok (Node.empty tag).module := by
    rw [Module.ofDocument_text d hfirst, hviolations]
    rfl
  obtain ⟨front, rest, hsplit, hafter, -, henough⟩ := accepted_up_to_module_end d.text _ h
  exact ⟨d, _, by decide +kernel, h, front, rest, hsplit, hafter, henough⟩

end YangScript
