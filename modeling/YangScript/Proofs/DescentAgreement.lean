import YangScript.Proofs.Descent
import YangScript.Proofs.Machine

/-!
# The machine and the descent agree

The machine at the beginning of an element goes on as the handler of the element does and then, with
its result, from behind the element. So reading a module by descent gives what the machine gives,
for every stream: the same module, or the same error.
-/

set_option autoImplicit false

namespace YangScript

open Xml Descent

namespace Descent.Outcome

variable {α β γ : Type} {s : Stream}

theorem resume_after (e : Event) (o : Outcome α s) (next : α → Stream → Except LoadError γ) :
    (o.after e).resume next = o.resume next := rfl

theorem resume_keep (x : Except LoadError α) (next : α → Stream → Except LoadError γ) :
    (keep s x).resume next = x >>= fun a => next a s := rfl

theorem resume_andThen (o : Outcome α s) (f : α → Except LoadError β)
    (next : β → Stream → Except LoadError γ) :
    (o.andThen f).resume next = o.resume fun a rest => f a >>= fun b => next b rest :=
  bind_assoc ..

theorem resume_bind (o : Outcome α s)
    (f : α → (rest : Stream) → rest.length ≤ s.length → Outcome β rest)
    (next : β → Stream → Except LoadError γ) :
    (o.bind f).resume next = o.result >>= fun a => (f a o.rest o.shorter).resume next := by
  cases h : o.result with
  | error e => rw [bind_of_error h]; rfl
  | ok a => rw [bind_of_ok h]; rfl

theorem resume_congr (o : Outcome α s) {next next' : α → Stream → Except LoadError γ}
    (h : ∀ a rest, next a rest = next' a rest) : o.resume next = o.resume next' :=
  congrArg o.resume (funext fun a => funext (h a))

end Descent.Outcome

open Outcome

namespace State

/-- The event of a tag. -/
def tagEvent (tag : Tag) (filled : Bool) : Event := if filled then .start tag else .empty tag

/-- In these states the machine stands inside an element, with what is known of it. -/
structure Reads {α : Type} (unfinished : α → Unfinished) (stand : α → State) : Prop where
  ended : ∀ a, run .finished (stand a) = .error (.unfinished (unfinished a))
  failed : ∀ a f, run (.fault f) (stand a) = .error (.markup f)
  text : ∀ a t, (stand a).step (.text t) = .ok (stand a)
  aside : ∀ a, (stand a).step .aside = .ok (stand a)

/-- What the machine does with the elements inside, it does with all that is inside. -/
theorem run_body {α : Type} {unfinished : α → Unfinished} {stand : α → State}
    (hreads : Reads unfinished stand) {s : Stream} (child : ChildHandler α s)
    (hchild : ∀ tag filled a rest h, run (.event (tagEvent tag filled) rest) (stand a) =
      (child tag filled a rest h).resume fun a rest => run rest (stand a)) (a : α) :
    run s (stand a) = (body unfinished s child a).resume fun a rest =>
      (stand a).step .close >>= run rest := by
  induction s, child, a using body.induct with
  | case1 a child =>
    rw [body, hreads.ended]
    rfl
  | case2 f a child =>
    rw [body, hreads.failed]
    rfl
  | case3 tag rest a child ih =>
    rw [body, resume_after, resume_bind]
    refine (hchild tag true a rest (Nat.lt_succ_self _)).trans ?_
    refine congrArg (_ >>= ·) (funext fun a => ?_)
    exact ih a _ _ fun tag filled a rest h => hchild tag filled a rest _
  | case4 tag rest a child ih =>
    rw [body, resume_after, resume_bind]
    refine (hchild tag false a rest (Nat.lt_succ_self _)).trans ?_
    refine congrArg (_ >>= ·) (funext fun a => ?_)
    exact ih a _ _ fun tag filled a rest h => hchild tag filled a rest _
  | case5 rest a child =>
    rw [body, run_event, resume_after, resume_keep]
    rfl
  | case6 t rest a child ih =>
    rw [body, run_event, hreads.text, resume_after]
    exact ih fun tag filled a rest h => hchild tag filled a rest _
  | case7 rest a child ih =>
    rw [body, run_event, hreads.aside, resume_after]
    exact ih fun tag filled a rest h => hchild tag filled a rest _

/-! ## Skipping and revisions -/

theorem run_skipOpen (depth : Nat) (s : Stream) (m : Module) (place : Place) :
    run s (inside m place (depth + 1)) =
      (skipOpen depth s).resume fun _ rest => run rest (inside m place 0) := by
  induction depth, s using skipOpen.induct with
  | case1 depth =>
    rw [skipOpen]
    cases place with
    | entries path => cases path <;> rfl
    | type t outer owner path => rfl
    | revision date text => rfl
  | case2 depth f =>
    rw [skipOpen]
    rfl
  | case3 depth tag rest ih =>
    rw [skipOpen, resume_after]
    exact ih
  | case4 rest =>
    rw [skipOpen, resume_after]
    rfl
  | case5 depth rest ih =>
    rw [skipOpen, resume_after]
    exact ih
  | case6 depth tag rest ih =>
    rw [skipOpen.eq_def, resume_after]
    exact ih
  | case7 depth t rest ih =>
    rw [skipOpen.eq_def, resume_after]
    exact ih
  | case8 depth rest ih =>
    rw [skipOpen.eq_def, resume_after]
    exact ih

/-- An element that the machine skips, once `x` has been read from its tag. -/
theorem run_skipElement {α : Type} {tag : Tag} {state : State} {x : Except LoadError α}
    {m : Module} {place : α → Place}
    (hstart : state.step (.start tag) = x >>= fun a => .ok (inside m (place a) 1))
    (filled : Bool) (s : Stream) :
    run (.event (tagEvent tag filled) s) state = x >>= fun a =>
      (skipElement filled s).resume fun _ rest => run rest (inside m (place a) 0) := by
  cases filled with
  | true =>
    rw [tagEvent, if_pos rfl, run_event, hstart, bind_assoc]
    exact congrArg (x >>= ·) (funext fun a => run_skipOpen 0 s m (place a))
  | false =>
    rw [tagEvent, if_neg Bool.false_ne_true, run_event, step_empty, hstart]
    simp only [bind_assoc]
    rfl

/-- An element into which the machine goes. -/
theorem run_element {α : Type} {tag : Tag} {state : State} {x : Except LoadError α}
    {stand : α → State} (hstart : state.step (.start tag) = x >>= fun a => .ok (stand a))
    {s : Stream} {content : α → Outcome α s}
    (hcontent : ∀ a, run s (stand a) = (content a).resume fun a rest =>
      (stand a).step .close >>= run rest) (h : Handler) (filled : Bool) :
    run (.event (tagEvent tag filled) s) state =
      (element h x filled s content).resume fun a rest => (stand a).step .close >>= run rest := by
  cases filled with
  | true =>
    rw [tagEvent, if_pos rfl, run_event, hstart, bind_assoc]
    cases x with
    | error e => rfl
    | ok a => exact hcontent a
  | false =>
    rw [tagEvent, if_neg Bool.false_ne_true, run_event, step_empty, hstart]
    simp only [bind_assoc]
    cases x <;> rfl

theorem attachRevision_eq (m : Module) (date : Option String) (text : String) :
    attachRevision m date text =
      dateOf date text >>= fun d => .ok { m with revisions := m.revisions ++ [d] } := by
  cases date with
  | some d => rfl
  | none =>
    simp only [attachRevision, dateOf]
    split <;> rfl

theorem run_readText (text : String) (s : Stream) (m : Module) (date : Option String) :
    run s (inside m (.revision date text) 0) = (readText text s).resume fun text rest =>
      attachRevision m date text >>= fun m => run rest (inside m (.entries []) 0) := by
  induction text, s using readText.induct with
  | case1 text =>
    rw [readText]
    rfl
  | case2 text f =>
    rw [readText]
    rfl
  | case3 text tag rest ih =>
    rw [readText, resume_after, resume_bind]
    refine (run_skipOpen 0 rest m (.revision date text)).trans ?_
    refine congrArg (_ >>= ·) (funext fun _ => ?_)
    exact ih _ (shorter _)
  | case4 text tag rest ih =>
    rw [readText, resume_after]
    exact ih
  | case5 text rest =>
    rw [readText, resume_after, resume_keep, run_event]
    simp only [step, stepPlace, stepRevision, bind_assoc]
    rfl
  | case6 text t rest ih =>
    rw [readText, resume_after]
    exact ih
  | case7 text rest ih =>
    rw [readText, resume_after]
    exact ih

/-! ## Types -/

theorem step_type (m : Module) (t : LeafType) (outer : List LeafType) (owner : OpenEntry)
    (path : List OpenEntry) {tag : Tag} (h : tag.name = "type") :
    (inside m (.type t outer owner path) 0).step (.start tag) =
      LeafType.ofTag tag >>= fun inner =>
        .ok (inside m (.type inner (t :: outer) owner path) 0) := by
  simp only [step, stepPlace, stepType, if_pos h]

theorem step_member (m : Module) (t : LeafType) (outer : List LeafType) (owner : OpenEntry)
    (path : List OpenEntry) {tag : Tag} (h : tag.name ≠ "type") :
    (inside m (.type t outer owner path) 0).step (.start tag) =
      attachMember t tag >>= fun t => .ok (inside m (.type t outer owner path) 1) := by
  simp only [step, stepPlace, stepType, if_neg h]

/-- What the machine does with one element inside a type. -/
def TakesInType (tag : Tag) (filled : Bool) (t : LeafType) (s : Stream) : Prop :=
  ∀ m outer owner path,
    run (.event (tagEvent tag filled) s) (inside m (.type t outer owner path) 0) =
      (typeChild tag filled t s).resume fun t rest =>
        run rest (inside m (.type t outer owner path) 0)

theorem run_typeBody_of {s : Stream}
    (h : ∀ tag filled t rest, rest.length < s.length → TakesInType tag filled t rest) (t : LeafType)
    (m : Module) (outer : List LeafType) (owner : OpenEntry) (path : List OpenEntry) :
    run s (inside m (.type t outer owner path) 0) = (typeBody t s).resume fun t rest =>
      (inside m (.type t outer owner path) 0).step .close >>= run rest := by
  have hreads : Reads (fun t => .type t.name) (fun t => inside m (.type t outer owner path) 0) :=
    ⟨fun _ => rfl, fun _ _ => rfl, fun _ _ => rfl, fun _ => rfl⟩
  exact run_body hreads _
    (fun tag filled t rest hrest => h tag filled t rest hrest m outer owner path) t

theorem takesInType (tag : Tag) (filled : Bool) (t : LeafType) (s : Stream) :
    TakesInType tag filled t s := by
  -- the types around are generalised: inside a type the machine has one more of them open
  induction hn : s.length using Nat.strongRecOn generalizing tag filled t s with
  | ind n ih =>
    intro m outer owner path
    rw [typeChild]
    split
    · rename_i htype
      have hbody := run_typeBody_of fun tag filled t rest hrest =>
        ih rest.length (hn ▸ hrest) tag filled t rest rfl
      rw [readType_eq, resume_andThen]
      exact run_element (step_type m t outer owner path htype)
        (fun inner => hbody inner m (t :: outer) owner path) .type filled
    · rename_i htype
      rw [run_skipElement (step_member m t outer owner path htype)]
      cases attachMember t tag with
      | error e => rfl
      | ok t =>
        change _ = ((skipElement filled s).andThen fun _ => .ok t).resume _
        rw [resume_andThen]
        rfl

theorem run_typeBody (t : LeafType) (s : Stream) (m : Module) (outer : List LeafType)
    (owner : OpenEntry) (path : List OpenEntry) :
    run s (inside m (.type t outer owner path) 0) = (typeBody t s).resume fun t rest =>
      (inside m (.type t outer owner path) 0).step .close >>= run rest :=
  run_typeBody_of (fun tag filled t rest _ => takesInType tag filled t rest) t m outer owner path

/-! ## Entries -/

theorem step_entryType (m : Module) (o : OpenEntry) (outer : List OpenEntry) {tag : Tag}
    (h : tag.name = "type") :
    (inside m (.entries (o :: outer)) 0).step (.start tag) =
      LeafType.ofTag tag >>= fun t => .ok (inside m (.type t [] o outer) 0) := by
  simp only [step, stepPlace, stepEntries, openAmongEntries, h]

theorem step_entry (m : Module) (path : List OpenEntry) {tag : Tag} {bare : Entry}
    (h : Entry.ofElement? tag.name = some bare) :
    (inside m (.entries path) 0).step (.start tag) =
      Entry.ofTag bare tag >>= fun e => .ok (inside m (.entries (⟨tag.name, e⟩ :: path)) 0) := by
  simp only [step, stepPlace, stepEntries, openAmongEntries]
  split
  · rename_i hname
    rw [hname] at h
    exact absurd h (by simp [Entry.ofElement?])
  · rename_i hname
    rw [hname] at h
    exact absurd h (by simp [Entry.ofElement?])
  · rw [h]

theorem step_unknown (m : Module) {path : List OpenEntry} {tag : Tag}
    (h : Entry.ofElement? tag.name = none) (hrevision : path = [] → tag.name ≠ "revision")
    (htype : path ≠ [] → tag.name ≠ "type") :
    (inside m (.entries path) 0).step (.start tag) = .ok (inside m (.entries path) 1) := by
  simp only [step, stepPlace, stepEntries, openAmongEntries]
  split
  · rename_i hname
    exact absurd hname (hrevision rfl)
  · rename_i hname
    exact absurd hname (htype (List.cons_ne_nil _ _))
  · rw [h]

theorem run_unknown (m : Module) {path : List OpenEntry} {tag : Tag}
    (h : Entry.ofElement? tag.name = none) (hrevision : path = [] → tag.name ≠ "revision")
    (htype : path ≠ [] → tag.name ≠ "type") (filled : Bool) (s : Stream) :
    run (.event (tagEvent tag filled) s) (inside m (.entries path) 0) =
      (skipElement filled s).resume fun _ rest => run rest (inside m (.entries path) 0) :=
  @run_skipElement Unit tag _ (.ok ()) m (fun _ => .entries path)
    (step_unknown m h hrevision htype) filled s

theorem attachEntry_open (m : Module) (o : OpenEntry) (outer : List OpenEntry) (e : Entry) :
    attachEntry m (o :: outer) e = takeChild o.entry e >>= fun parent =>
      .ok (inside m (.entries (⟨o.tag, parent⟩ :: outer)) 0) := by
  rw [attachEntry, takeChild]
  split <;> rfl

theorem attachEntry_top (m : Module) (e : Entry) :
    attachEntry m [] e = takeEntry m e >>= fun m => .ok (inside m (.entries []) 0) := by
  rw [attachEntry, takeEntry]
  split <;> rfl

theorem attachType_eq (m : Module) (o : OpenEntry) (outer : List OpenEntry) (t : LeafType) :
    attachType m o outer t = takeType o.entry t >>= fun e =>
      .ok (inside m (.entries (⟨o.tag, e⟩ :: outer)) 0) := by
  rw [attachType, takeType]
  split <;> rfl

/-- What the machine does with one element inside an entry. -/
def TakesInEntry (tag : Tag) (filled : Bool) (e : Entry) (s : Stream) : Prop :=
  ∀ m element outer,
    run (.event (tagEvent tag filled) s) (inside m (.entries (⟨element, e⟩ :: outer)) 0) =
      (entryChild tag filled e s).resume fun e rest =>
        run rest (inside m (.entries (⟨element, e⟩ :: outer)) 0)

theorem run_entryBody_of {s : Stream}
    (h : ∀ tag filled e rest, rest.length < s.length → TakesInEntry tag filled e rest)
    (element : String) (e : Entry) (m : Module) (outer : List OpenEntry) :
    run s (inside m (.entries (⟨element, e⟩ :: outer)) 0) =
      (entryBody element e s).resume fun e rest =>
        (inside m (.entries (⟨element, e⟩ :: outer)) 0).step .close >>= run rest := by
  have hreads : Reads (fun e => .entry element e.name)
      (fun e => inside m (.entries (⟨element, e⟩ :: outer)) 0) :=
    ⟨fun _ => rfl, fun _ _ => rfl, fun _ _ => rfl, fun _ => rfl⟩
  exact run_body hreads _
    (fun tag filled e rest hrest => h tag filled e rest hrest m element outer) e

theorem takesInEntry (tag : Tag) (filled : Bool) (e : Entry) (s : Stream) :
    TakesInEntry tag filled e s := by
  induction hn : s.length using Nat.strongRecOn generalizing tag filled e s with
  | ind n ih =>
    intro m element outer
    rw [entryChild]
    split
    · rename_i htype
      rw [readType_eq, resume_andThen,
        run_element (step_entryType m ⟨element, e⟩ outer htype)
          (fun t => run_typeBody t s m [] ⟨element, e⟩ outer) .type filled]
      refine resume_congr _ fun t rest => ?_
      change attachType m ⟨element, e⟩ outer t >>= run rest = _
      rw [attachType_eq, bind_assoc]
      rfl
    · rename_i htype
      split
      · rename_i bare helement
        have hbody := run_entryBody_of fun tag filled e rest hrest =>
          ih rest.length (hn ▸ hrest) tag filled e rest rfl
        rw [readEntry_eq, resume_andThen,
          run_element (step_entry m (⟨element, e⟩ :: outer) helement)
            (fun child => hbody tag.name child m (⟨element, e⟩ :: outer)) .entry filled]
        refine resume_congr _ fun child rest => ?_
        change attachEntry m (⟨element, e⟩ :: outer) child >>= run rest = _
        rw [attachEntry_open, bind_assoc]
        rfl
      · rename_i helement
        rw [resume_andThen]
        exact run_unknown m helement (fun h => absurd h (List.cons_ne_nil _ _)) (fun _ => htype)
          filled s

theorem run_entryBody (element : String) (e : Entry) (s : Stream) (m : Module)
    (outer : List OpenEntry) :
    run s (inside m (.entries (⟨element, e⟩ :: outer)) 0) =
      (entryBody element e s).resume fun e rest =>
        (inside m (.entries (⟨element, e⟩ :: outer)) 0).step .close >>= run rest :=
  run_entryBody_of (fun tag filled e rest _ => takesInEntry tag filled e rest) element e m outer

/-! ## Modules -/

theorem step_revision (m : Module) {tag : Tag} (h : tag.name = "revision") :
    (inside m (.entries []) 0).step (.start tag) =
      revisionDate tag >>= fun date => .ok (inside m (.revision date "") 0) := by
  simp only [step, stepPlace, stepEntries, openAmongEntries, h]

theorem run_readRevision (m : Module) {tag : Tag} (h : tag.name = "revision") (filled : Bool)
    (s : Stream) :
    run (.event (tagEvent tag filled) s) (inside m (.entries []) 0) =
      (readRevision tag filled s).resume fun date rest =>
        run rest (inside { m with revisions := m.revisions ++ [date] } (.entries []) 0) := by
  have hattach : ∀ date text rest,
      (attachRevision m date text >>= fun m => run rest (inside m (.entries []) 0)) =
        dateOf date text >>= fun d =>
          run rest (inside { m with revisions := m.revisions ++ [d] } (.entries []) 0) := by
    intro date text rest
    rw [attachRevision_eq, bind_assoc]
    rfl
  rw [readRevision]
  cases filled with
  | true =>
    rw [tagEvent, if_pos rfl, run_event, step_revision m h, bind_assoc]
    cases revisionDate tag with
    | error e => rfl
    | ok date =>
      change run s (inside m (.revision date "") 0) =
        ((readText "" s).andThen (dateOf date)).resume _
      rw [run_readText, resume_andThen]
      exact resume_congr _ (hattach date)
  | false =>
    rw [tagEvent, if_neg Bool.false_ne_true, run_event, step_empty, step_revision m h]
    cases revisionDate tag with
    | error e => rfl
    | ok date =>
      change ((attachRevision m date "" >>= fun m => .ok (inside m (.entries []) 0)) >>= run s) =
        ((keep s (.ok "")).andThen (dateOf date)).resume _
      rw [bind_assoc, resume_andThen]
      exact hattach date "" s

theorem run_moduleChild (tag : Tag) (filled : Bool) (m : Module) (s : Stream) :
    run (.event (tagEvent tag filled) s) (inside m (.entries []) 0) =
      (moduleChild tag filled m s).resume fun m rest => run rest (inside m (.entries []) 0) := by
  rw [moduleChild]
  split
  · rename_i hrevision
    rw [resume_andThen]
    exact run_readRevision m hrevision filled s
  · rename_i hrevision
    split
    · rename_i bare helement
      rw [readEntry_eq, resume_andThen,
        run_element (step_entry m [] helement)
          (fun e => run_entryBody tag.name e s m []) .entry filled]
      refine resume_congr _ fun e rest => ?_
      change attachEntry m [] e >>= run rest = _
      rw [attachEntry_top, bind_assoc]
      rfl
    · rename_i helement
      rw [resume_andThen]
      exact run_unknown m helement (fun _ => hrevision) (absurd rfl) filled s

theorem run_moduleBody (m : Module) (s : Stream) :
    run s (inside m (.entries []) 0) =
      (moduleBody m s).result := by
  have hreads : Reads (fun m => .module m.name) (fun m => inside m (.entries []) 0) :=
    ⟨fun _ => rfl, fun _ _ => rfl, fun _ _ => rfl, fun _ => rfl⟩
  refine (run_body hreads _
    (fun tag filled m rest _ => run_moduleChild tag filled m rest) m).trans ?_
  refine (resume_congr _ fun m rest => run_complete rest m).trans ?_
  exact bind_pure _

end State

open State

/-- Reading by descent gives what the machine gives. -/
theorem readModule_result (s : Stream) : (readModule s).result = run s .waiting := by
  induction s using readModule.induct with
  | case1 => rfl
  | case2 f => rfl
  | case3 tag rest ih =>
    rw [readModule, run_event]
    simp only [after, step, stepWaiting]
    split
    · cases Module.ofTag tag with
      | error e => rfl
      | ok m => exact (run_moduleBody m rest).symm
    · exact ih
  | case4 tag rest ih =>
    rw [readModule, run_event]
    simp only [after, step, stepWaiting]
    split
    · cases Module.ofTag tag with
      | error e => rfl
      | ok m => exact (run_complete rest m).symm
    · exact ih
  | case5 rest ih =>
    rw [readModule]
    exact ih
  | case6 t rest ih =>
    rw [readModule]
    exact ih
  | case7 rest ih =>
    rw [readModule]
    exact ih

end YangScript
