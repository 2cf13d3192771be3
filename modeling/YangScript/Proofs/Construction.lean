import YangScript.Proofs.Loading

/-!
# How entries and modules come to be

An entry is made without children, is given fields, and takes in other entries; a module takes in
entries, or is loaded from a document. Whatever is made in this way keeps the entries in the order
of their names at every depth, as no step but an insertion touches them. For loading, the order is
an invariant of the machine: it holds of the module and of all entries that are still open.
-/

set_option autoImplicit false

namespace YangScript

open Xml

mutual

/-- The entries that can be made. They may be taken out of others, and out of modules. -/
inductive Entry.Built : Entry → Prop
  | bare {e : Entry} (empty : e.children = []) : e.Built
  | adjusted {e e' : Entry} (entry : e.Built) (same : e'.children = e.children) : e'.Built
  | insert {e child : Entry} (entry : e.Built) (new : child.Built) : (e.insert child).Built
  | child {e child : Entry} (entry : e.Built) (mem : child ∈ e.children) : child.Built
  | taken {m : Module} {e : Entry} (module : m.Built) (mem : e ∈ m.entries) : e.Built

/-- The modules that can be made. -/
inductive Module.Built : Module → Prop
  | bare {m : Module} (empty : m.entries = []) : m.Built
  | loaded {m : Module} {document : String} (load : Module.ofDocument document = .ok m) : m.Built
  | adjusted {m m' : Module} (module : m.Built) (same : m'.entries = m.entries) : m'.Built
  | insert {m : Module} {e : Entry} (module : m.Built) (new : e.Built) : (m.insert e).Built

end

/-- Children stand in the order of their names, without repetition, at every depth. -/
inductive Entry.Ordered : Entry → Prop
  | intro {e : Entry} (sorted : Keyed.Sorted Entry.name e.children)
      (each : ∀ child ∈ e.children, child.Ordered) : e.Ordered

structure Module.Ordered (m : Module) : Prop where
  sorted : Keyed.Sorted Entry.name m.entries
  each : ∀ e ∈ m.entries, e.Ordered

namespace Entry.Ordered

variable {e e' child : Entry}

theorem sorted (h : e.Ordered) : Keyed.Sorted Entry.name e.children := by
  cases h with
  | intro sorted each => exact sorted

theorem each (h : e.Ordered) : ∀ child ∈ e.children, child.Ordered := by
  cases h with
  | intro sorted each => exact each

theorem bare (h : e.children = []) : e.Ordered :=
  .intro (h ▸ Keyed.sorted_nil Entry.name) (by simp [h])

theorem adjusted (h : e.Ordered) (same : e'.children = e.children) : e'.Ordered :=
  .intro (same ▸ h.sorted) (same ▸ h.each)

end Entry.Ordered

theorem ordered_insert {e : Entry} {es : List Entry} (he : e.Ordered)
    (hsorted : Keyed.Sorted Entry.name es) (heach : ∀ e' ∈ es, e'.Ordered) :
    Keyed.Sorted Entry.name (Keyed.insert Entry.name e es) ∧
      ∀ e' ∈ Keyed.insert Entry.name e es, e'.Ordered := by
  refine ⟨Keyed.sorted_insert Entry.name e es hsorted, fun e' hmem => ?_⟩
  rcases Keyed.mem_insert Entry.name e e' es hmem with rfl | hmem
  · exact he
  · exact heach e' hmem

theorem Entry.Ordered.insert {e child : Entry} (h : e.Ordered) (hchild : child.Ordered) :
    (e.insert child).Ordered := by
  obtain ⟨hsorted, heach⟩ := ordered_insert hchild h.sorted h.each
  exact .intro hsorted heach

theorem Module.Ordered.insert {m : Module} {e : Entry} (h : m.Ordered) (he : e.Ordered) :
    (m.insert e).Ordered := by
  obtain ⟨hsorted, heach⟩ := ordered_insert he h.sorted h.each
  exact ⟨hsorted, heach⟩

theorem Module.Ordered.adjusted {m m' : Module} (h : m.Ordered) (same : m'.entries = m.entries) :
    m'.Ordered :=
  ⟨same ▸ h.sorted, same ▸ h.each⟩

theorem Module.Ordered.bare {m : Module} (h : m.entries = []) : m.Ordered :=
  ⟨h ▸ Keyed.sorted_nil Entry.name, by simp [h]⟩

/-! ## What tags give -/

section

variable {ε α β : Type}

theorem exists_of_bind_eq_ok {x : Except ε α} {f : α → Except ε β} {b : β}
    (h : x >>= f = .ok b) : ∃ a, x = .ok a ∧ f a = .ok b := by
  cases x with
  | error e => exact absurd h (by simp [bind, Except.bind])
  | ok a => exact ⟨a, rfl, h⟩

theorem foldlM_invariant {P : β → Prop} {take : β → α → Except ε β}
    (htake : ∀ s a s', P s → take s a = .ok s' → P s') {as : List α} {s r : β} (hs : P s)
    (h : as.foldlM take s = .ok r) : P r := by
  induction as generalizing s with
  | nil =>
    obtain rfl := Except.ok.inj h
    exact hs
  | cons a as ih =>
    rw [List.foldlM_cons] at h
    obtain ⟨next, hnext, hrest⟩ := exists_of_bind_eq_ok h
    exact ih (htake s a next hs hnext) hrest

end

/-- What every attribute keeps is kept by all attributes of a tag. -/
theorem Xml.AttributeRun.collect_invariant {σ : Type} {P : σ → Prop} {run : AttributeRun}
    {take : σ → Attribute → Except LoadError σ} {start r : σ}
    (htake : ∀ s a s', P s → take s a = .ok s' → P s') (hstart : P start)
    (h : run.collect take start = .ok r) : P r := by
  obtain ⟨result, hresult, hfault⟩ := exists_of_bind_eq_ok h
  have hP := foldlM_invariant htake hstart hresult
  cases hf : run.fault with
  | none =>
    rw [hf] at hfault
    obtain rfl := Except.ok.inj hfault
    exact hP
  | some f =>
    rw [hf] at hfault
    exact absurd hfault (by simp)

theorem Entry.children_takeAttribute {element : String} {s s' : Option String × Entry}
    {a : Attribute} (hs : s.2.children = []) (h : Entry.takeAttribute element s a = .ok s') :
    s'.2.children = [] := by
  obtain ⟨name, e⟩ := s
  rw [takeAttribute] at h
  split at h
  case h_2 | h_3 =>
    obtain ⟨on, -, hok⟩ := exists_of_bind_eq_ok h
    obtain rfl := Except.ok.inj hok
    exact hs
  all_goals
    obtain rfl := Except.ok.inj h
    exact hs

theorem Entry.children_ofTag {bare e : Entry} {tag : Tag} (hbare : bare.children = [])
    (h : Entry.ofTag bare tag = .ok e) : e.children = [] := by
  obtain ⟨⟨name, read⟩, hread, hrest⟩ := exists_of_bind_eq_ok h
  obtain ⟨given, -, hok⟩ := exists_of_bind_eq_ok hrest
  obtain rfl := Except.ok.inj hok
  exact Xml.AttributeRun.collect_invariant (P := fun s => s.2.children = [])
    (fun _ _ _ hs ha => children_takeAttribute hs ha) hbare hread

theorem Module.entries_ofTag {m : Module} {tag : Tag} (h : Module.ofTag tag = .ok m) :
    m.entries = [] := by
  obtain ⟨⟨name, read⟩, hread, hrest⟩ := exists_of_bind_eq_ok h
  obtain ⟨given, -, hgiven⟩ := exists_of_bind_eq_ok hrest
  have hentries : read.entries = [] := by
    refine Xml.AttributeRun.collect_invariant (P := fun s => s.2.entries = []) ?_ rfl hread
    intro s a s' hs ha
    obtain ⟨name, m⟩ := s
    rw [takeAttribute] at ha
    split at ha <;> exact (Except.ok.inj ha) ▸ hs
  split at hgiven
  · exact absurd hgiven (by simp)
  · obtain rfl := Except.ok.inj hgiven
    exact hentries

/-! ## What the machine keeps -/

/-- All entries that are open at the place are in order. -/
def Place.Ordered : Place → Prop
  | .entries path => ∀ o ∈ path, o.entry.Ordered
  | .type _ _ owner path => ∀ o ∈ owner :: path, o.entry.Ordered
  | .revision _ _ => True

def State.Ordered : State → Prop
  | .waiting => True
  | .inside m place _ => m.Ordered ∧ place.Ordered
  | .complete m => m.Ordered

namespace State

section

variable {m : Module} {path : List OpenEntry} {s : State} (hm : m.Ordered)

include hm

theorem ordered_attachRevision {date : Option String} {text : String} {m' : Module}
    (h : attachRevision m date text = .ok m') : m'.Ordered := by
  unfold attachRevision at h
  split at h
  · obtain rfl := Except.ok.inj h
    exact hm.adjusted rfl
  · split at h
    · exact absurd h (by simp)
    · obtain rfl := Except.ok.inj h
      exact hm.adjusted rfl

theorem ordered_attachType {owner : OpenEntry} {t : LeafType}
    (hpath : ∀ o ∈ owner :: path, o.entry.Ordered) (h : attachType m owner path t = .ok s) :
    s.Ordered := by
  obtain ⟨howner, houter⟩ := List.forall_mem_cons.mp hpath
  rw [attachType] at h
  split at h
  · exact absurd h (by simp)
  · obtain rfl := Except.ok.inj h
    exact ⟨hm, List.forall_mem_cons.mpr ⟨howner.adjusted rfl, houter⟩⟩

variable (hpath : ∀ o ∈ path, o.entry.Ordered)

include hpath

theorem ordered_attachEntry {e : Entry} (he : e.Ordered) (h : attachEntry m path e = .ok s) :
    s.Ordered := by
  cases path with
  | nil =>
    rw [attachEntry] at h
    split at h
    · exact absurd h (by simp)
    · obtain rfl := Except.ok.inj h
      exact ⟨hm.insert he, hpath⟩
  | cons o outer =>
    obtain ⟨ho, houter⟩ := List.forall_mem_cons.mp hpath
    rw [attachEntry] at h
    split at h
    · exact absurd h (by simp)
    · obtain rfl := Except.ok.inj h
      exact ⟨hm, List.forall_mem_cons.mpr ⟨ho.insert he, houter⟩⟩

theorem ordered_openAmongEntries {tag : Tag} (h : openAmongEntries m path tag = .ok s) :
    s.Ordered := by
  unfold openAmongEntries at h
  split at h
  · obtain ⟨date, -, hok⟩ := exists_of_bind_eq_ok h
    obtain rfl := Except.ok.inj hok
    exact ⟨hm, trivial⟩
  · obtain ⟨t, -, hok⟩ := exists_of_bind_eq_ok h
    obtain rfl := Except.ok.inj hok
    exact ⟨hm, hpath⟩
  · split at h
    · obtain rfl := Except.ok.inj h
      exact ⟨hm, hpath⟩
    · rename_i bare hbare
      obtain ⟨e, he, hok⟩ := exists_of_bind_eq_ok h
      obtain rfl := Except.ok.inj hok
      have hnew := Entry.children_ofTag (Entry.bare_of_ofElement? hbare).1 he
      exact ⟨hm, List.forall_mem_cons.mpr ⟨.bare hnew, hpath⟩⟩

theorem ordered_emptyAmongEntries {tag : Tag} (h : emptyAmongEntries m path tag = .ok s) :
    s.Ordered := by
  unfold emptyAmongEntries at h
  split at h
  · obtain ⟨date, -, hrest⟩ := exists_of_bind_eq_ok h
    obtain ⟨m', hm', hok⟩ := exists_of_bind_eq_ok hrest
    obtain rfl := Except.ok.inj hok
    exact ⟨ordered_attachRevision hm hm', hpath⟩
  · obtain ⟨t, -, hok⟩ := exists_of_bind_eq_ok h
    exact ordered_attachType hm hpath hok
  · split at h
    · obtain rfl := Except.ok.inj h
      exact ⟨hm, hpath⟩
    · rename_i bare hbare
      obtain ⟨e, he, hok⟩ := exists_of_bind_eq_ok h
      have hnew := Entry.children_ofTag (Entry.bare_of_ofElement? hbare).1 he
      exact ordered_attachEntry hm hpath (.bare hnew) hok

theorem ordered_stepEntries {event : Event} (h : stepEntries m path event = .ok s) :
    s.Ordered := by
  cases event with
  | start tag => exact ordered_openAmongEntries hm hpath h
  | empty tag => exact ordered_emptyAmongEntries hm hpath h
  | close =>
    cases path with
    | nil =>
      obtain rfl := Except.ok.inj h
      exact hm
    | cons o outer =>
      obtain ⟨ho, houter⟩ := List.forall_mem_cons.mp hpath
      exact ordered_attachEntry hm houter ho h
  | text t =>
    obtain rfl := Except.ok.inj h
    exact ⟨hm, hpath⟩
  | aside =>
    obtain rfl := Except.ok.inj h
    exact ⟨hm, hpath⟩

end

/-- In a type nothing changes but the type, until it is given to its owner. -/
theorem ordered_stepType {m : Module} {t : LeafType} {outer : List LeafType} {owner : OpenEntry}
    {path : List OpenEntry} {event : Event} {s : State} (hm : m.Ordered)
    (hpath : ∀ o ∈ owner :: path, o.entry.Ordered)
    (h : stepType m t outer owner path event = .ok s) : s.Ordered := by
  cases event with
  | start tag =>
    rw [stepType] at h
    split at h
    · obtain ⟨inner, -, hok⟩ := exists_of_bind_eq_ok h
      obtain rfl := Except.ok.inj hok
      exact ⟨hm, hpath⟩
    · obtain ⟨t', -, hok⟩ := exists_of_bind_eq_ok h
      obtain rfl := Except.ok.inj hok
      exact ⟨hm, hpath⟩
  | empty tag =>
    rw [stepType] at h
    split at h
    · obtain ⟨member, -, hok⟩ := exists_of_bind_eq_ok h
      obtain rfl := Except.ok.inj hok
      exact ⟨hm, hpath⟩
    · obtain ⟨t', -, hok⟩ := exists_of_bind_eq_ok h
      obtain rfl := Except.ok.inj hok
      exact ⟨hm, hpath⟩
  | close =>
    cases outer with
    | nil => exact ordered_attachType hm hpath h
    | cons around rest =>
      obtain rfl := Except.ok.inj h
      exact ⟨hm, hpath⟩
  | text text =>
    obtain rfl := Except.ok.inj h
    exact ⟨hm, hpath⟩
  | aside =>
    obtain rfl := Except.ok.inj h
    exact ⟨hm, hpath⟩

theorem ordered_stepRevision {m : Module} {date : Option String} {text : String} {event : Event}
    {s : State} (hm : m.Ordered) (h : stepRevision m date text event = .ok s) : s.Ordered := by
  cases event with
  | close =>
    obtain ⟨m', hm', hok⟩ := exists_of_bind_eq_ok h
    obtain rfl := Except.ok.inj hok
    exact ⟨ordered_attachRevision hm hm', by simp [Place.Ordered]⟩
  | _ =>
    obtain rfl := Except.ok.inj h
    exact ⟨hm, trivial⟩

theorem ordered_stepWaiting {event : Event} {s : State} (h : stepWaiting event = .ok s) :
    s.Ordered := by
  unfold stepWaiting at h
  split at h
  · split at h
    · obtain ⟨m, hm, hok⟩ := exists_of_bind_eq_ok h
      obtain rfl := Except.ok.inj hok
      exact ⟨.bare (Module.entries_ofTag hm), by simp [Place.Ordered]⟩
    · obtain rfl := Except.ok.inj h
      trivial
  · split at h
    · obtain ⟨m, hm, hok⟩ := exists_of_bind_eq_ok h
      obtain rfl := Except.ok.inj hok
      exact .bare (Module.entries_ofTag hm)
    · obtain rfl := Except.ok.inj h
      trivial
  · obtain rfl := Except.ok.inj h
    trivial

theorem Ordered.step {s next : State} {event : Event} (hs : s.Ordered)
    (h : s.step event = .ok next) : next.Ordered := by
  cases s with
  | waiting => exact ordered_stepWaiting h
  | complete m =>
    obtain rfl := Except.ok.inj h
    exact hs
  | inside m place skipped =>
    obtain ⟨hm, hplace⟩ := hs
    cases skipped with
    | succ depth =>
      obtain rfl := Except.ok.inj h
      cases event <;> exact ⟨hm, hplace⟩
    | zero =>
      cases place with
      | entries path => exact ordered_stepEntries hm hplace h
      | type t outer owner path => exact ordered_stepType hm hplace h
      | revision date text => exact ordered_stepRevision hm h

/-- Only a complete module is an answer at the end of the document. -/
theorem eq_complete_of_finish {s : State} {m : Module} (h : s.finish = .ok m) :
    s = complete m := by
  cases s with
  | waiting => exact absurd h (by simp [finish])
  | complete m' => rw [Except.ok.inj h]
  | inside m' place skipped =>
    cases place with
    | entries path => cases path <;> exact absurd h (by simp [finish])
    | type t outer owner path => exact absurd h (by simp [finish])
    | revision date text =>
      obtain ⟨m'', -, hok⟩ := exists_of_bind_eq_ok h
      exact absurd hok (by simp)

theorem Ordered.run {stream : Stream} {s : State} {m : Module} (hs : s.Ordered)
    (h : run stream s = .ok m) : m.Ordered := by
  induction stream generalizing s with
  | finished =>
    have hcomplete : s = complete m := by
      cases s with
      | complete m' => rw [Except.ok.inj h]
      | _ => exact eq_complete_of_finish h
    rw [hcomplete] at hs
    exact hs
  | fault f =>
    cases s with
    | complete m' => exact Except.ok.inj h ▸ hs
    | _ => exact absurd h (by simp [State.run])
  | event e rest ih =>
    rw [run_event] at h
    obtain ⟨next, hnext, hrest⟩ := exists_of_bind_eq_ok h
    exact ih (hs.step hnext) hrest

end State

theorem Module.ordered_ofDocument {document : String} {m : Module}
    (h : Module.ofDocument document = .ok m) : m.Ordered :=
  State.Ordered.run (s := .waiting) trivial h

mutual

theorem Entry.Built.ordered : {e : Entry} → e.Built → e.Ordered
  | _, .bare empty => .bare empty
  | _, .adjusted entry same => entry.ordered.adjusted same
  | _, .insert entry new => entry.ordered.insert new.ordered
  | _, .child entry mem => entry.ordered.each _ mem
  | _, .taken module mem => module.ordered.each _ mem

/-- However a module was made, its entries stand in the order of their names at every depth. -/
theorem Module.Built.ordered : {m : Module} → m.Built → m.Ordered
  | _, .bare empty => .bare empty
  | _, .loaded load => Module.ordered_ofDocument load
  | _, .adjusted module same => module.ordered.adjusted same
  | _, .insert module new => module.ordered.insert new.ordered

end

end YangScript
