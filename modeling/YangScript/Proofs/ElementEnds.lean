import YangScript.Proofs.DescentAgreement

/-!
# Every handler consumes its own element

The end of an element is found by counting tags. A handler that succeeds has read up to that end and
no further, whatever the elements inside are; only skipping and adding up text also succeed if the
stream ends first. What is written as an empty tag is done with before the handler is called.
-/

set_option autoImplicit false

namespace YangScript

open Xml Descent

namespace Xml

/-- Events in which every element that begins ends, and no other. -/
inductive WellNested : List Event → Prop where
  | nil : WellNested []
  | empty (tag : Tag) {es : List Event} : WellNested es → WellNested (.empty tag :: es)
  | text (t : String) {es : List Event} : WellNested es → WellNested (.text t :: es)
  | aside {es : List Event} : WellNested es → WellNested (.aside :: es)
  | element (tag : Tag) {inside es : List Event} : WellNested inside → WellNested es →
      WellNested (.start tag :: inside ++ .close :: es)

namespace Stream

/-- What follows the end tag of an element in which `depth` further elements are open. -/
def afterEnd? : Nat → Stream → Option Stream
  | _, .finished => none
  | _, .fault _ => none
  | depth, .event (.start _) rest => afterEnd? (depth + 1) rest
  | 0, .event .close rest => some rest
  | depth + 1, .event .close rest => afterEnd? depth rest
  | depth, .event (.empty _) rest => afterEnd? depth rest
  | depth, .event (.text _) rest => afterEnd? depth rest
  | depth, .event .aside rest => afterEnd? depth rest

theorem afterEnd?_empty (depth : Nat) (tag : Tag) (rest : Stream) :
    (event (.empty tag) rest).afterEnd? depth = rest.afterEnd? depth := by
  rw [afterEnd?.eq_def]

theorem afterEnd?_text (depth : Nat) (t : String) (rest : Stream) :
    (event (.text t) rest).afterEnd? depth = rest.afterEnd? depth := by
  rw [afterEnd?.eq_def]

theorem afterEnd?_aside (depth : Nat) (rest : Stream) :
    (event .aside rest).afterEnd? depth = rest.afterEnd? depth := by
  rw [afterEnd?.eq_def]

theorem afterEnd?_succ (depth : Nat) (s : Stream) :
    s.afterEnd? (depth + 1) = (s.afterEnd? depth).bind (afterEnd? 0) := by
  induction s generalizing depth with
  | finished => rfl
  | fault f => rfl
  | event e rest ih =>
    cases e with
    | start tag => exact ih (depth + 1)
    | empty tag => simpa only [afterEnd?_empty] using ih depth
    | text t => simpa only [afterEnd?_text] using ih depth
    | aside => simpa only [afterEnd?_aside] using ih depth
    | close =>
      cases depth with
      | zero => rfl
      | succ depth => exact ih depth

/-- Behind an element inside, the element around it goes on. -/
theorem afterEnd?_start (tag : Tag) (rest : Stream) :
    (event (.start tag) rest).afterEnd? 0 =
      ((rest.afterEnd? 0).getD .finished).afterEnd? 0 := by
  change rest.afterEnd? 1 = _
  rw [afterEnd?_succ]
  cases rest.afterEnd? 0 <;> rfl

theorem length_afterEnd? {depth : Nat} {s rest : Stream} (h : s.afterEnd? depth = some rest) :
    rest.length < s.length := by
  fun_induction afterEnd? depth s with
  | case1 => exact absurd h (by simp)
  | case2 => exact absurd h (by simp)
  | case4 behind =>
    rw [Option.some.inj h]
    exact Nat.lt_succ_self _
  | case3 _ _ _ ih | case5 _ _ ih | case6 _ _ _ ih | case7 _ _ _ ih | case8 _ _ ih =>
    exact Nat.lt_succ_of_lt (ih h)

end Stream

theorem WellNested.afterEnd?_after {inside : List Event} (h : WellNested inside) (depth : Nat)
    (s : Stream) : (Stream.after inside s).afterEnd? depth = s.afterEnd? depth := by
  induction h generalizing depth s with
  | nil => rfl
  | empty tag _ ih => exact (Stream.afterEnd?_empty depth tag _).trans (ih depth s)
  | text t _ ih => exact (Stream.afterEnd?_text depth t _).trans (ih depth s)
  | aside _ ih => exact (Stream.afterEnd?_aside depth _).trans (ih depth s)
  | @element tag inside es _ _ ihinside ihes =>
    rw [Stream.after_append]
    change (Stream.after inside (.event .close (Stream.after es s))).afterEnd? (depth + 1) = _
    rw [ihinside]
    exact ihes depth s

namespace Stream

theorem exists_wellNested {s rest : Stream} (h : s.afterEnd? 0 = some rest) :
    ∃ inside, WellNested inside ∧ s = after inside (.event .close rest) := by
  induction hn : s.length using Nat.strongRecOn generalizing s rest with
  | ind n ih =>
    cases s with
    | finished => exact absurd h (by simp [afterEnd?])
    | fault f => exact absurd h (by simp [afterEnd?])
    | event e behind =>
      rw [length] at hn
      cases e with
      | close =>
        rw [Option.some.inj h]
        exact ⟨[], .nil, rfl⟩
      | empty tag =>
        rw [afterEnd?_empty] at h
        obtain ⟨inside, hnested, hs⟩ := ih _ (by omega) h rfl
        exact ⟨_, .empty tag hnested, congrArg (event (.empty tag)) hs⟩
      | text t =>
        rw [afterEnd?_text] at h
        obtain ⟨inside, hnested, hs⟩ := ih _ (by omega) h rfl
        exact ⟨_, .text t hnested, congrArg (event (.text t)) hs⟩
      | aside =>
        rw [afterEnd?_aside] at h
        obtain ⟨inside, hnested, hs⟩ := ih _ (by omega) h rfl
        exact ⟨_, .aside hnested, congrArg (event .aside) hs⟩
      | start tag =>
        -- the end one level up is found from behind the end of the element that begins here
        have hsplit : (behind.afterEnd? 0).bind (afterEnd? 0) = some rest :=
          (afterEnd?_succ 0 behind).symm.trans h
        obtain ⟨middle, hmiddle, hrest⟩ := Option.bind_eq_some_iff.mp hsplit
        have hshorter := length_afterEnd? hmiddle
        obtain ⟨inside, hinside, hs⟩ := ih _ (by omega) hmiddle rfl
        obtain ⟨es, hes, hs'⟩ := ih _ (by omega) hrest rfl
        refine ⟨_, .element tag hinside hes, ?_⟩
        rw [after_append, hs, hs']
        rfl

/-- What follows the end tag stands behind well nested events and that tag. -/
theorem afterEnd?_eq_some_iff (s rest : Stream) :
    s.afterEnd? 0 = some rest ↔
      ∃ inside, WellNested inside ∧ s = after inside (.event .close rest) := by
  refine ⟨exists_wellNested, ?_⟩
  rintro ⟨inside, hnested, rfl⟩
  exact hnested.afterEnd?_after 0 _

end Stream

end Xml

namespace Descent

namespace Outcome

variable {α β : Type} {s : Stream}

/-- Success comes only with the end tag, and right behind it. -/
def Closes (o : Outcome α s) : Prop := ∀ a, o.result = .ok a → s.afterEnd? 0 = some o.rest

/-- Success comes right behind the end tag, or at the end of a stream without it. -/
def ClosesOrEnds (o : Outcome α s) : Prop :=
  ∀ a, o.result = .ok a → o.rest = (s.afterEnd? 0).getD .finished

/-- Nothing is read. -/
structure Idle (o : Outcome α s) : Prop where
  rest : o.rest = s
  calls : o.trace.countP Mark.isCall = 0

theorem Closes.closesOrEnds {o : Outcome α s} (h : o.Closes) : o.ClosesOrEnds := by
  intro a ha
  rw [h a ha]
  rfl

theorem ClosesOrEnds.andThen {o : Outcome α s} (h : o.ClosesOrEnds)
    (f : α → Except LoadError β) : (o.andThen f).ClosesOrEnds := by
  intro b hb
  obtain ⟨a, ha, -⟩ := ok_of_andThen hb
  exact h a ha

theorem Idle.andThen {o : Outcome α s} (h : o.Idle) (f : α → Except LoadError β) :
    (o.andThen f).Idle :=
  ⟨h.rest, h.calls⟩

theorem idle_keep (s : Stream) (x : Except LoadError α) : (keep s x).Idle := ⟨rfl, rfl⟩

/-- A refusal that comes before anything is read. -/
theorem closes_refused (s : Stream) (e : LoadError) :
    (keep s (.error e : Except LoadError α)).Closes :=
  fun _ h => absurd h (by simp [keep])

end Outcome

open Outcome

/-! ## Loops -/

theorem skipOpen_rest (depth : Nat) (s : Stream) (h : (skipOpen depth s).result = .ok ()) :
    (skipOpen depth s).rest = (s.afterEnd? depth).getD .finished := by
  induction depth, s using skipOpen.induct with
  | case1 depth => rw [skipOpen]; rfl
  | case2 depth f =>
    rw [skipOpen] at h
    exact absurd h (by simp [atFault])
  | case3 depth tag rest ih =>
    rw [skipOpen] at h ⊢
    exact ih h
  | case4 rest => rw [skipOpen]; rfl
  | case5 depth rest ih =>
    rw [skipOpen] at h ⊢
    exact ih h
  | case6 depth tag rest ih =>
    rw [Stream.afterEnd?_empty]
    rw [skipOpen.eq_def] at h ⊢
    exact ih h
  | case7 depth t rest ih =>
    rw [Stream.afterEnd?_text]
    rw [skipOpen.eq_def] at h ⊢
    exact ih h
  | case8 depth rest ih =>
    rw [Stream.afterEnd?_aside]
    rw [skipOpen.eq_def] at h ⊢
    exact ih h

theorem closesOrEnds_skipToEnd (s : Stream) : (skipToEnd s).ClosesOrEnds :=
  fun _ h => skipOpen_rest 0 s h

theorem closesOrEnds_readText (text : String) (s : Stream) : (readText text s).ClosesOrEnds := by
  induction text, s using readText.induct with
  | case1 text =>
    rw [readText]
    exact fun _ _ => rfl
  | case2 text f =>
    rw [readText]
    exact fun _ h => absurd h (by simp [atFault])
  | case3 text tag rest ih =>
    rw [readText]
    intro a (h : ((skipToEnd rest).bind _).result = .ok a)
    obtain ⟨_, hskip, hbehind, hrest⟩ := ok_of_bind h
    rw [Stream.afterEnd?_start, ← closesOrEnds_skipToEnd rest _ hskip]
    exact hrest.trans (ih _ (shorter _) a hbehind)
  | case4 text tag rest ih =>
    rw [readText]
    intro a h
    rw [Stream.afterEnd?_empty]
    exact ih a h
  | case5 text rest =>
    rw [readText]
    exact fun _ _ => rfl
  | case6 text t rest ih =>
    rw [readText]
    intro a h
    rw [Stream.afterEnd?_text]
    exact ih a h
  | case7 text rest ih =>
    rw [readText]
    intro a h
    rw [Stream.afterEnd?_aside]
    exact ih a h

/-- A body is read up to the end tag if the elements inside are. -/
theorem closes_body {α : Type} (unfinished : α → Unfinished) {s : Stream} (child : ChildHandler α s)
    (hfilled : ∀ tag a rest h, (child tag true a rest h).ClosesOrEnds)
    (hempty : ∀ tag a rest h, (child tag false a rest h).Idle) (a : α) :
    (body unfinished s child a).Closes := by
  induction s, child, a using body.induct with
  | case1 a child =>
    rw [body]
    exact fun _ h => absurd h (by simp [atEnd])
  | case2 f a child =>
    rw [body]
    exact fun _ h => absurd h (by simp [atFault])
  | case3 tag rest a child ih =>
    rw [body]
    intro b (h : ((child tag true a rest _).bind _).result = .ok b)
    obtain ⟨a', hchild, hbehind, hrest⟩ := ok_of_bind h
    rw [Stream.afterEnd?_start, ← hfilled tag a rest _ a' hchild]
    exact (ih a' _ (shorter _) (fun tag a rest _ => hfilled tag a rest _)
      (fun tag a rest _ => hempty tag a rest _) b hbehind).trans (congrArg some hrest.symm)
  | case4 tag rest a child ih =>
    rw [body]
    intro b (h : ((child tag false a rest _).bind _).result = .ok b)
    obtain ⟨a', hchild, hbehind, hrest⟩ := ok_of_bind h
    have hidle := hempty tag a rest (Nat.lt_succ_self _)
    have hends := ih a' _ (shorter _) (fun tag a rest _ => hfilled tag a rest _)
      (fun tag a rest _ => hempty tag a rest _) b hbehind
    -- nothing was read for the element, so the end to look for is the same
    rw [Stream.afterEnd?_empty]
    calc rest.afterEnd? 0
        = (child tag false a rest (Nat.lt_succ_self _)).rest.afterEnd? 0 := by rw [hidle.rest]
      _ = _ := hends.trans (congrArg some hrest.symm)
  | case5 rest a child =>
    rw [body]
    exact fun _ _ => rfl
  | case6 t rest a child ih =>
    rw [body]
    intro b h
    rw [Stream.afterEnd?_text]
    exact ih (fun tag a rest _ => hfilled tag a rest _) (fun tag a rest _ => hempty tag a rest _)
      b h
  | case7 rest a child ih =>
    rw [body]
    intro b h
    rw [Stream.afterEnd?_aside]
    exact ih (fun tag a rest _ => hfilled tag a rest _) (fun tag a rest _ => hempty tag a rest _)
      b h

/-! ## Handlers -/

/-- What a handler leaves of the stream, by whether its element is filled. -/
def Outcome.LeavesRest (filled : Bool) {α : Type} {s : Stream} (o : Outcome α s) : Prop :=
  match filled with
  | true => o.ClosesOrEnds
  | false => o.Idle

/-- The same for elements that are not read without their end tag. -/
def Outcome.LeavesOwnRest (filled : Bool) {α : Type} {s : Stream} (o : Outcome α s) : Prop :=
  match filled with
  | true => o.Closes
  | false => o.Idle

theorem inherited_rest : Inherited LeavesRest LeavesOwnRest Closes where
  refused filled s e := by
    cases filled with
    | true => exact (closes_refused s e).closesOrEnds
    | false => exact idle_keep s _
  kept s a := idle_keep s _
  skip s := closesOrEnds_skipToEnd s
  text s := closesOrEnds_readText "" s
  andThen {_ _ filled _ _} h f := by
    cases filled with
    | true => exact ClosesOrEnds.andThen h f
    | false => exact Idle.andThen h f
  ofOwn {_ filled _ _} h := by
    cases filled with
    | true => exact Closes.closesOrEnds h
    | false => exact h
  element {_} _ head filled {s _} hcontent := by
    cases head with
    | error e =>
      cases filled with
      | true => exact closes_refused s e
      | false => exact ⟨rfl, rfl⟩
    | ok a =>
      cases filled with
      | true => exact hcontent a
      | false => exact ⟨rfl, rfl⟩
  body unfinished _ handler h := closes_body unfinished handler
    (fun tag a rest hrest => h tag true a rest hrest)
    (fun tag a rest hrest => h tag false a rest hrest)

/-! ## What a handler leaves -/

section handler

variable {α : Type} (handler : (s : Stream) → Outcome α s)

/-- Behind a start tag: whatever stands inside the element and behind it, success leaves exactly
what stands behind. -/
def ConsumesElement : Prop :=
  ∀ inside rest, WellNested inside → ∀ a,
    (handler (.after inside (.event .close rest))).result = .ok a →
      (handler (.after inside (.event .close rest))).rest = rest

def ConsumesNothing : Prop := ∀ s, (handler s).Idle

/-- There is no success on a stream that does not get to the end tag. -/
def NeedsEnd : Prop :=
  ∀ s, (∀ inside rest, WellNested inside → s ≠ .after inside (.event .close rest)) →
    ∀ a, (handler s).result ≠ .ok a

variable {handler}

theorem consumesElement_of (h : ∀ s, (handler s).ClosesOrEnds) : ConsumesElement handler := by
  intro inside rest hnested a ha
  have hend := (Stream.afterEnd?_eq_some_iff _ rest).mpr ⟨inside, hnested, rfl⟩
  rw [h _ a ha, hend]
  rfl

theorem needsEnd_of (h : ∀ s, (handler s).Closes) : NeedsEnd handler := by
  intro s hs a ha
  obtain ⟨inside, hnested, heq⟩ := Stream.exists_wellNested (h s a ha)
  exact hs inside _ hnested heq

end handler

end Descent

open Descent in
/-- Reading by descent gives what the machine gives. Behind a start tag every handler that succeeds
has consumed exactly its element; behind an empty tag it calls the reader not at all; and types,
entries and modules are not read without their end tag. -/
theorem handlers_consume_their_element (text : String) (tag : Tag) (t : LeafType) (bare e : Entry)
    (m : Module) :
    (∀ s, (readModule s).result = State.run s .waiting) ∧
    (ConsumesElement skipToEnd ∧ ConsumesElement (readText text) ∧
      ConsumesElement (typeChild tag true t) ∧ ConsumesElement (readType tag true) ∧
      ConsumesElement (entryChild tag true e) ∧ ConsumesElement (readEntry bare tag true) ∧
      ConsumesElement (readRevision tag true) ∧ ConsumesElement (moduleChild tag true m) ∧
      ConsumesElement (moduleBody m)) ∧
    (ConsumesNothing (typeChild tag false t) ∧ ConsumesNothing (readType tag false) ∧
      ConsumesNothing (entryChild tag false e) ∧ ConsumesNothing (readEntry bare tag false) ∧
      ConsumesNothing (readRevision tag false) ∧ ConsumesNothing (moduleChild tag false m)) ∧
    NeedsEnd (readType tag true) ∧ NeedsEnd (readEntry bare tag true) ∧
    NeedsEnd (moduleBody m) := by
  have h := inherited_rest
  have htype : ∀ s, (readType tag true s).Closes := h.readType tag true
  have hentry : ∀ s, (readEntry bare tag true s).Closes := h.readEntry bare tag true
  have hmodule : ∀ s, (moduleBody m s).Closes := h.moduleBody m
  refine ⟨readModule_result, ⟨?_, ?_, ?_, ?_, ?_, ?_, ?_, ?_, ?_⟩, ⟨?_, ?_, ?_, ?_, ?_, ?_⟩,
    needsEnd_of htype, needsEnd_of hentry, needsEnd_of hmodule⟩
  · exact consumesElement_of closesOrEnds_skipToEnd
  · exact consumesElement_of (closesOrEnds_readText text)
  · exact consumesElement_of (h.typeChild tag true t)
  · exact consumesElement_of fun s => (htype s).closesOrEnds
  · exact consumesElement_of (h.entryChild tag true e)
  · exact consumesElement_of fun s => (hentry s).closesOrEnds
  · exact consumesElement_of (h.readRevision tag true)
  · exact consumesElement_of (h.moduleChild tag true m)
  · exact consumesElement_of fun s => (hmodule s).closesOrEnds
  · exact h.typeChild tag false t
  · exact h.readType tag false
  · exact h.entryChild tag false e
  · exact h.readEntry bare tag false
  · exact h.readRevision tag false
  · exact h.moduleChild tag false m

end YangScript
