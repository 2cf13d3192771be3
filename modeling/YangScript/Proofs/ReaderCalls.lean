import YangScript.Proofs.DescentAgreement
import YangScript.Proofs.Prompt

/-!
# How often the reader is called

Each event uses up some of the document, so there are no more events than bytes. Beyond them a
handler can only meet the end or a fault. A fault ends everything; the end is passed on by skipping
and by adding up text, from one handler to the one around it, but no further than to the module.
A handler is entered right behind the tag of its element, so none calls itself without reading.
-/

set_option autoImplicit false

namespace YangScript

open Xml Descent

namespace Xml

/-! ## What an event uses up -/

theorem byteSize_append (cs ds : List Char) : byteSize (cs ++ ds) = byteSize cs + byteSize ds := by
  induction cs with
  | nil => exact (Nat.zero_add _).symm
  | cons c cs ih => rw [List.cons_append, byteSize, byteSize, ih, Nat.add_assoc]

theorem byteSize_pos {cs : List Char} (h : cs ≠ []) : 0 < byteSize cs := by
  cases cs with
  | nil => exact absurd rfl h
  | cons c cs => exact Nat.add_pos_left c.utf8Size_pos _

theorem byteSize_toList (s : String) : byteSize s.toList = s.utf8ByteSize := by
  have hlist : ∀ cs, byteSize cs = (String.ofList cs).utf8ByteSize := by
    intro cs
    induction cs with
    | nil => rfl
    | cons c cs ih =>
      rw [String.ofList_cons, String.utf8ByteSize_append, String.utf8ByteSize_singleton, byteSize,
        ih]
  rw [hlist, String.ofList_toList]

theorem byteSize_dropMark_le (cs : List Char) : byteSize (dropMark cs) ≤ byteSize cs := by
  unfold dropMark
  split
  · exact Nat.le_add_left ..
  · exact Nat.le_refl _

theorem Step.suffix_of_ofText {cs rest : List Char} {p : Piece}
    (h : Step.ofText cs = .piece p rest) : rest <:+ cs := by
  obtain ⟨t, tail, rfl, htail⟩ := exists_charData cs
  have hends : EndsText tail := by
    rcases htail with rfl | hmarkup
    · exact fun _ hc => absurd hc (by simp)
    · exact hmarkup.endsText
  suffices hsuffix : rest <:+ tail from hsuffix.trans (List.suffix_append _ _)
  rcases t.step_chars tail hends with ⟨-, hstep⟩ | ⟨s, -, hstep⟩
  · rw [hstep] at h
    rcases htail with rfl | hmarkup
    · exact absurd h (by simp [Step.ofText])
    · obtain ⟨used, hused, -⟩ := prompt_markup.exact ⟨hmarkup, h⟩
      exact ⟨used, hused.symm⟩
  · rw [hstep, Step.piece.injEq] at h
    exact h.2 ▸ List.suffix_rfl

namespace Stream

/-- Behind an event less of the text is left. -/
theorem ofText_event {opened : List String} {cs : List Char} {e : Event} {rest : Stream}
    (h : ofText opened cs = .event e rest) :
    ∃ opened' behind, rest = ofText opened' behind ∧ behind <:+ cs ∧
      byteSize behind < byteSize cs := by
  rw [ofText_eq_ofStep] at h
  cases hstep : Step.ofText cs with
  | stop => exact absurd (hstep ▸ h) (by simp [ofStep])
  | fault f => exact absurd (hstep ▸ h) (by simp [ofStep])
  | piece p behind =>
    have hsuffix := Step.suffix_of_ofText hstep
    have hbytes : byteSize behind < byteSize cs := by
      have hshorter := Step.within_ofText cs p behind hstep
      obtain ⟨used, rfl⟩ := hsuffix
      have hused : used ≠ [] := by
        rintro rfl
        exact Nat.lt_irrefl _ hshorter
      have hpos := byteSize_pos hused
      rw [byteSize_append]
      omega
    rw [hstep] at h
    suffices hrest : ∃ opened', rest = ofText opened' behind by
      obtain ⟨opened', hrest⟩ := hrest
      exact ⟨opened', behind, hrest, hsuffix, hbytes⟩
    cases p with
    | start tag => exact ⟨_, (event.inj h).2.symm⟩
    | empty tag => exact ⟨_, (event.inj h).2.symm⟩
    | text s => exact ⟨_, (event.inj h).2.symm⟩
    | aside => exact ⟨_, (event.inj h).2.symm⟩
    | close name =>
      cases opened with
      | nil => exact absurd h (by simp [ofStep])
      | cons expected outer =>
        rw [ofStep] at h
        split at h
        · exact ⟨_, (event.inj h).2.symm⟩
        · exact absurd h (by simp)

theorem length_ofText_le (opened : List String) (cs : List Char) :
    (ofText opened cs).length ≤ byteSize cs := by
  induction hn : byteSize cs using Nat.strongRecOn generalizing opened cs with
  | ind n ih =>
    cases hs : ofText opened cs with
    | finished => exact Nat.zero_le _
    | fault f => exact Nat.zero_le _
    | event e rest =>
      obtain ⟨opened', behind, rfl, -, hbytes⟩ := ofText_event hs
      have hbehind := ih _ (hn ▸ hbytes) opened' behind rfl
      rw [length]
      omega

theorem length_ofDocument_le (d : String) : (ofDocument d).length ≤ d.utf8ByteSize :=
  calc (ofDocument d).length
      ≤ byteSize (dropMark d.toList) := length_ofText_le _ _
    _ ≤ byteSize d.toList := byteSize_dropMark_le _
    _ = d.utf8ByteSize := byteSize_toList d

end Stream

end Xml

namespace Descent

/-! ## Calls that give no event -/

def Mark.isStop : Mark → Bool
  | ended => true
  | failed _ => true
  | _ => false

theorem countP_isCall (marks : List Mark) :
    marks.countP Mark.isCall =
      (marks.filterMap Mark.event?).length + marks.countP Mark.isStop := by
  induction marks with
  | nil => rfl
  | cons mark marks ih =>
    cases mark with
    | enter h => exact ih
    | read e =>
      rw [List.countP_cons_of_pos rfl, ih, Nat.add_right_comm]
      rfl
    | ended =>
      rw [List.countP_cons_of_pos rfl, List.countP_cons_of_pos rfl, ih]
      rfl
    | failed f =>
      rw [List.countP_cons_of_pos rfl, List.countP_cons_of_pos rfl, ih]
      rfl

namespace Outcome

variable {α β : Type} {s : Stream}

/-- How many calls of the reader gave no event. -/
def stops (o : Outcome α s) : Nat := o.trace.countP Mark.isStop

/-- With success there were at most `k` calls that gave no event, and if there was one then the
document has ended; without, there were at most `n`. -/
structure StopsWithin (k n : Nat) (o : Outcome α s) : Prop where
  success : ∀ a, o.result = .ok a → o.stops ≤ k ∧ (0 < o.stops → o.rest = .finished)
  always : o.stops ≤ n

variable {o : Outcome α s} {j k n : Nat}

theorem StopsWithin.mono {k' n' : Nat} (h : o.StopsWithin k n) (hk : k ≤ k') (hn : n ≤ n') :
    o.StopsWithin k' n' where
  success a ha := ⟨Nat.le_trans (h.success a ha).1 hk, (h.success a ha).2⟩
  always := Nat.le_trans h.always hn

theorem stopsWithin_keep (x : Except LoadError α) : (keep s x).StopsWithin k n :=
  ⟨fun _ _ => ⟨Nat.zero_le _, fun h => absurd h (Nat.lt_irrefl _)⟩, Nat.zero_le _⟩

theorem stopsWithin_atEnd (x : Except LoadError α) : (atEnd x).StopsWithin 1 1 :=
  ⟨fun _ _ => ⟨Nat.le_refl _, fun _ => rfl⟩, Nat.le_refl _⟩

theorem stopsWithin_of_error {e : LoadError} (h : o.result = .error e) (hn : o.stops ≤ n) :
    o.StopsWithin k n :=
  ⟨fun _ ha => absurd (h.symm.trans ha) (by simp), hn⟩

theorem StopsWithin.after (h : o.StopsWithin k n) (e : Event) : (o.after e).StopsWithin k n :=
  ⟨h.success, h.always⟩

theorem StopsWithin.entering (h : o.StopsWithin k n) (handler : Handler) :
    (o.entering handler).StopsWithin k n :=
  ⟨h.success, h.always⟩

theorem StopsWithin.andThen (h : o.StopsWithin k n) (f : α → Except LoadError β) :
    (o.andThen f).StopsWithin k n where
  success b hb := by
    obtain ⟨a, ha, -⟩ := ok_of_andThen hb
    exact h.success a ha
  always := h.always

theorem stops_bind {next : α → (rest : Stream) → rest.length ≤ s.length → Outcome β rest} {a : α}
    (h : o.result = .ok a) :
    (o.bind next).stops = o.stops + (next a o.rest o.shorter).stops := by
  rw [bind_of_ok h]
  exact List.countP_append

/-- If the document has ended, what goes on calls the reader once more, and has room for that. -/
theorem StopsWithin.bind {next : α → (rest : Stream) → rest.length ≤ s.length → Outcome β rest}
    (h : o.StopsWithin k n) (hkn : k + 1 ≤ n)
    (hnext : ∀ a, (next a o.rest o.shorter).StopsWithin j n)
    (hend : ∀ a, o.rest = .finished → (next a o.rest o.shorter).stops = 1 ∧
      ∀ b, (next a o.rest o.shorter).result = .ok b → k + 1 ≤ j) :
    (o.bind next).StopsWithin j n := by
  constructor
  · intro b hb
    obtain ⟨a, ho, hsecond, hrest⟩ := ok_of_bind hb
    obtain ⟨hstops, hfinished⟩ := h.success a ho
    obtain ⟨hbound, hlast⟩ := (hnext a).success b hsecond
    rw [stops_bind ho, hrest]
    -- either nothing has stopped so far, or the document has ended
    by_cases hnone : o.stops = 0
    · rw [hnone, Nat.zero_add]
      exact ⟨hbound, hlast⟩
    · obtain ⟨hone, hroom⟩ := hend a (hfinished (Nat.pos_of_ne_zero hnone))
      have hk := hroom b hsecond
      exact ⟨by omega, fun _ => hlast (by omega)⟩
  · cases ho : o.result with
    | error e =>
      rw [bind_of_error ho]
      exact h.always
    | ok a =>
      obtain ⟨hstops, hfinished⟩ := h.success a ho
      have hsecond := (hnext a).always
      rw [stops_bind ho]
      by_cases hnone : o.stops = 0
      · omega
      · obtain ⟨hone, -⟩ := hend a (hfinished (Nat.pos_of_ne_zero hnone))
        omega

end Outcome

open Outcome

theorem stopsWithin_skipOpen (depth : Nat) (s : Stream) : (skipOpen depth s).StopsWithin 1 1 := by
  induction depth, s using skipOpen.induct with
  | case1 depth =>
    rw [skipOpen]
    exact stopsWithin_atEnd _
  | case2 depth f =>
    rw [skipOpen]
    exact stopsWithin_of_error rfl (Nat.le_refl 1)
  | case3 depth tag rest ih =>
    rw [skipOpen]
    exact ih.after _
  | case4 rest =>
    rw [skipOpen]
    exact (stopsWithin_keep _).after _
  | case5 depth rest ih =>
    rw [skipOpen]
    exact ih.after _
  | case6 depth tag rest ih =>
    rw [skipOpen.eq_def]
    exact ih.after _
  | case7 depth t rest ih =>
    rw [skipOpen.eq_def]
    exact ih.after _
  | case8 depth rest ih =>
    rw [skipOpen.eq_def]
    exact ih.after _

theorem stopsWithin_skipToEnd (s : Stream) : (skipToEnd s).StopsWithin 1 1 :=
  (stopsWithin_skipOpen 0 s).entering _

theorem stopsWithin_readText (text : String) (s : Stream) : (readText text s).StopsWithin 2 2 := by
  induction text, s using readText.induct with
  | case1 text =>
    rw [readText]
    exact (stopsWithin_atEnd _).mono (Nat.le_succ _) (Nat.le_succ _)
  | case2 text f =>
    rw [readText]
    exact stopsWithin_of_error rfl (Nat.le_succ 1)
  | case3 text tag rest ih =>
    have hskip := (stopsWithin_skipToEnd rest).mono (Nat.le_refl 1) (Nat.le_succ 1)
    rw [readText]
    refine (hskip.bind (Nat.le_refl 2) (fun _ => ih _ (shorter _)) fun _ hend => ?_).after _
    rw [hend, readText]
    exact ⟨rfl, fun _ _ => Nat.le_refl _⟩
  | case4 text tag rest ih =>
    rw [readText]
    exact ih.after _
  | case5 text rest =>
    rw [readText]
    exact (stopsWithin_keep _).after _
  | case6 text t rest ih =>
    rw [readText]
    exact ih.after _
  | case7 text rest ih =>
    rw [readText]
    exact ih.after _

theorem body_finished {α : Type} (unfinished : α → Unfinished) {s : Stream} (h : s = .finished)
    (child : ChildHandler α s) (a : α) :
    (body unfinished s child a).stops = 1 ∧
      (body unfinished s child a).result = .error (.unfinished (unfinished a)) := by
  subst h
  rw [body]
  exact ⟨rfl, rfl⟩

theorem stopsWithin_body {α : Type} {k : Nat} (unfinished : α → Unfinished) {s : Stream}
    (child : ChildHandler α s)
    (hchild : ∀ tag filled a rest h, (child tag filled a rest h).StopsWithin k (k + 1)) (a : α) :
    (body unfinished s child a).StopsWithin 0 (k + 1) := by
  -- at the end of the document a body calls once more and fails, so the end is passed on no further
  have hrefused : ∀ {s : Stream} (h : s = .finished) (child : ChildHandler α s) (a : α),
      (body unfinished s child a).stops = 1 ∧
        ∀ b, (body unfinished s child a).result = .ok b → k + 1 ≤ 0 := by
    intro s h child a
    obtain ⟨hstops, herror⟩ := body_finished unfinished h child a
    exact ⟨hstops, fun b hb => absurd (herror.symm.trans hb) (by simp)⟩
  induction s, child, a using body.induct with
  | case1 a child =>
    rw [body]
    exact stopsWithin_of_error rfl (Nat.le_add_left 1 k)
  | case2 f a child =>
    rw [body]
    exact stopsWithin_of_error rfl (Nat.le_add_left 1 k)
  | case3 tag rest a child ih =>
    have hgoes := fun a' => ih a' _ (shorter (child tag true a rest (Nat.lt_succ_self _)))
      fun tag filled a rest _ => hchild tag filled a rest _
    rw [body]
    exact ((hchild tag true a rest _).bind (Nat.le_refl _) hgoes
      fun a' hend => hrefused hend _ a').after _
  | case4 tag rest a child ih =>
    have hgoes := fun a' => ih a' _ (shorter (child tag false a rest (Nat.lt_succ_self _)))
      fun tag filled a rest _ => hchild tag filled a rest _
    rw [body]
    exact ((hchild tag false a rest _).bind (Nat.le_refl _) hgoes
      fun a' hend => hrefused hend _ a').after _
  | case5 rest a child =>
    rw [body]
    exact (stopsWithin_keep _).after _
  | case6 t rest a child ih =>
    rw [body]
    exact (ih fun tag filled a rest _ => hchild tag filled a rest _).after _
  | case7 rest a child ih =>
    rw [body]
    exact (ih fun tag filled a rest _ => hchild tag filled a rest _).after _

/-- Two elements can pass on the end of the document: text, and what is skipped inside it. -/
theorem inherited_stops :
    Inherited (fun _ {_ _} => StopsWithin 2 3) (fun _ {_ _} => StopsWithin 0 3)
      (StopsWithin 0 3) where
  refused _ s e := stopsWithin_keep _
  kept s a := stopsWithin_keep _
  skip s := (stopsWithin_skipToEnd s).mono (by decide) (by decide)
  text s := (stopsWithin_readText "" s).mono (by decide) (by decide)
  andThen h f := h.andThen f
  ofOwn h := h.mono (by decide) (by decide)
  element {_} _ head filled {s _} hcontent := by
    cases head with
    | error e => exact (stopsWithin_keep _).entering _
    | ok a =>
      cases filled with
      | true => exact (hcontent a).entering _
      | false => exact (stopsWithin_keep _).entering _
  body unfinished _ handler h := stopsWithin_body unfinished handler h

theorem stops_readModule_le (s : Stream) : (readModule s).stops ≤ 3 := by
  induction s with
  | finished => exact Nat.le_add_left 1 2
  | fault f => exact Nat.le_add_left 1 2
  | event e rest ih =>
    cases e with
    | start tag =>
      rw [readModule]
      split
      · split
        · exact Nat.zero_le 3
        · exact (inherited_stops.moduleBody _ rest).always
      · exact ih
    | empty tag =>
      rw [readModule]
      split
      · exact Nat.zero_le 3
      · exact ih
    | close => exact ih
    | text t => exact ih
    | aside => exact ih

/-- A handler calls the reader for the events, and at most three times more. -/
theorem calls_readModule_le (s : Stream) :
    (readModule s).trace.countP Mark.isCall ≤ s.length + 3 := by
  have hevents := (readModule s).length_used
  have hstops : (readModule s).trace.countP Mark.isStop ≤ 3 := stops_readModule_le s
  rw [countP_isCall]
  omega

/-! ## Where handlers are entered -/

def Mark.isEntrance : Mark → Bool
  | enter _ => true
  | _ => false

/-- The reader gives an event with which an element begins. -/
def Mark.opens : Mark → Bool
  | read (.start _) => true
  | read (.empty _) => true
  | _ => false

/-- A handler is entered only right behind a mark that opens an element. Here `opened` tells whether
such a mark stands in front. -/
def Led : Bool → List Mark → Prop
  | _, [] => True
  | opened, mark :: marks => (mark.isEntrance = true → opened = true) ∧ Led mark.opens marks

theorem Led.mono {marks : List Mark} (h : Led false marks) (opened : Bool) : Led opened marks := by
  cases marks with
  | nil => trivial
  | cons mark marks => exact ⟨fun hmark => absurd (h.1 hmark) (by simp), h.2⟩

theorem Led.append {opened : Bool} {marks more : List Mark} (h : Led opened marks)
    (hmore : Led false more) : Led opened (marks ++ more) := by
  induction marks generalizing opened with
  | nil => exact hmore.mono opened
  | cons mark marks ih => exact ⟨h.1, ih h.2⟩

theorem Led.of_append {opened : Bool} {marks more : List Mark} (h : Led opened (marks ++ more)) :
    ∃ opened', Led opened' more := by
  induction marks generalizing opened with
  | nil => exact ⟨opened, h⟩
  | cons mark marks ih => exact ih h.2

theorem Led.exists_opens {opened : Bool} {marks more : List Mark} {h : Handler}
    (hled : Led opened (marks ++ .enter h :: more)) :
    opened = true ∨ ∃ mark ∈ marks, mark.opens = true := by
  induction marks generalizing opened with
  | nil => exact Or.inl (hled.1 rfl)
  | cons mark marks ih =>
    refine Or.inr ?_
    rcases ih hled.2 with hopens | ⟨other, hmem, hopens⟩
    · exact ⟨mark, List.mem_cons_self, hopens⟩
    · exact ⟨other, List.mem_cons_of_mem _ hmem, hopens⟩

/-- Between two entrances an element has begun. -/
theorem Led.exists_between {opened : Bool} {before between after : List Mark} {h h' : Handler}
    (hled : Led opened (before ++ .enter h :: (between ++ .enter h' :: after))) :
    ∃ mark ∈ between, mark.opens = true := by
  obtain ⟨_, -, hbehind⟩ := hled.of_append
  rcases hbehind.exists_opens with hopened | hbetween
  · exact absurd hopened (by simp [Mark.opens])
  · exact hbetween

namespace Outcome

variable {α β : Type} {s : Stream}

/-- Where a handler begins may depend on the mark in front of it. -/
def LedFrom (opened : Bool) (o : Outcome α s) : Prop := Led opened o.trace

variable {o : Outcome α s} {opened : Bool}

theorem ledFrom_keep (opened : Bool) (x : Except LoadError α) : (keep s x).LedFrom opened := trivial

theorem ledFrom_atEnd (opened : Bool) (x : Except LoadError α) : (atEnd x).LedFrom opened :=
  ⟨fun h => absurd h (by simp [Mark.isEntrance]), trivial⟩

theorem ledFrom_atFault (opened : Bool) (f : Fault) :
    (atFault f : Outcome α (.fault f)).LedFrom opened :=
  ⟨fun h => absurd h (by simp [Mark.isEntrance]), trivial⟩

theorem LedFrom.after (h : o.LedFrom false) (e : Event) (opened : Bool) :
    (o.after e).LedFrom opened :=
  ⟨fun h => absurd h (by simp [Mark.isEntrance]), Led.mono h _⟩

theorem LedFrom.afterOpening (h : o.LedFrom true) {e : Event} (he : (Mark.read e).opens = true)
    (opened : Bool) : (o.after e).LedFrom opened :=
  ⟨fun h => absurd h (by simp [Mark.isEntrance]), he ▸ h⟩

theorem LedFrom.entering (h : o.LedFrom false) (handler : Handler) :
    (o.entering handler).LedFrom true :=
  ⟨fun _ => rfl, h⟩

theorem LedFrom.bind {next : α → (rest : Stream) → rest.length ≤ s.length → Outcome β rest}
    (h : o.LedFrom opened) (hnext : ∀ a, (next a o.rest o.shorter).LedFrom false) :
    (o.bind next).LedFrom opened := by
  cases ho : o.result with
  | error e =>
    rw [bind_of_error ho]
    exact h
  | ok a =>
    rw [bind_of_ok ho]
    exact Led.append h (hnext a)

end Outcome

theorem led_skipOpen (depth : Nat) (s : Stream) : (skipOpen depth s).LedFrom false := by
  induction depth, s using skipOpen.induct with
  | case1 depth =>
    rw [skipOpen]
    exact ledFrom_atEnd _ _
  | case2 depth f =>
    rw [skipOpen]
    exact ledFrom_atFault _ f
  | case3 depth tag rest ih =>
    rw [skipOpen]
    exact ih.after _ _
  | case4 rest =>
    rw [skipOpen]
    exact (ledFrom_keep _ _).after _ _
  | case5 depth rest ih =>
    rw [skipOpen]
    exact ih.after _ _
  | case6 depth tag rest ih =>
    rw [skipOpen.eq_def]
    exact ih.after _ _
  | case7 depth t rest ih =>
    rw [skipOpen.eq_def]
    exact ih.after _ _
  | case8 depth rest ih =>
    rw [skipOpen.eq_def]
    exact ih.after _ _

theorem led_skipToEnd (s : Stream) : (skipToEnd s).LedFrom true :=
  LedFrom.entering (led_skipOpen 0 s) _

theorem led_readText (text : String) (s : Stream) : (readText text s).LedFrom false := by
  induction text, s using readText.induct with
  | case1 text =>
    rw [readText]
    exact ledFrom_atEnd _ _
  | case2 text f =>
    rw [readText]
    exact ledFrom_atFault _ f
  | case3 text tag rest ih =>
    rw [readText]
    exact ((led_skipToEnd rest).bind fun _ => ih _ (shorter _)).afterOpening rfl _
  | case4 text tag rest ih =>
    rw [readText]
    exact ih.after _ _
  | case5 text rest =>
    rw [readText]
    exact (ledFrom_keep _ _).after _ _
  | case6 text t rest ih =>
    rw [readText]
    exact ih.after _ _
  | case7 text rest ih =>
    rw [readText]
    exact ih.after _ _

theorem led_body {α : Type} (unfinished : α → Unfinished) {s : Stream} (child : ChildHandler α s)
    (hchild : ∀ tag filled a rest h, (child tag filled a rest h).LedFrom true) (a : α) :
    (body unfinished s child a).LedFrom false := by
  induction s, child, a using body.induct with
  | case1 a child =>
    rw [body]
    exact ledFrom_atEnd _ _
  | case2 f a child =>
    rw [body]
    exact ledFrom_atFault _ f
  | case3 tag rest a child ih =>
    rw [body]
    exact ((hchild tag true a rest _).bind fun a' =>
      ih a' _ (shorter _) fun tag filled a rest _ => hchild tag filled a rest _).afterOpening rfl _
  | case4 tag rest a child ih =>
    rw [body]
    exact ((hchild tag false a rest _).bind fun a' =>
      ih a' _ (shorter _) fun tag filled a rest _ => hchild tag filled a rest _).afterOpening rfl _
  | case5 rest a child =>
    rw [body]
    exact (ledFrom_keep _ _).after _ _
  | case6 t rest a child ih =>
    rw [body]
    exact (ih fun tag filled a rest _ => hchild tag filled a rest _).after _ _
  | case7 rest a child ih =>
    rw [body]
    exact (ih fun tag filled a rest _ => hchild tag filled a rest _).after _ _

theorem inherited_led :
    Inherited (fun _ {_ _} => LedFrom true) (fun _ {_ _} => LedFrom true) (LedFrom false) where
  refused _ s e := ledFrom_keep _ _
  kept s a := ledFrom_keep _ _
  skip s := led_skipToEnd s
  text s := Led.mono (led_readText "" s) true
  andThen h _ := h
  ofOwn h := h
  element {_} handler head filled {s _} hcontent := by
    cases head with
    | error e => exact LedFrom.entering (ledFrom_keep _ _) handler
    | ok a =>
      cases filled with
      | true => exact (hcontent a).entering handler
      | false => exact LedFrom.entering (ledFrom_keep _ _) handler
  body unfinished _ handler h := led_body unfinished handler h

theorem led_readModule (s : Stream) : (readModule s).LedFrom false := by
  induction s with
  | finished => exact ledFrom_atEnd _ _
  | fault f => exact ledFrom_atFault _ f
  | event e rest ih =>
    cases e with
    | start tag =>
      rw [readModule]
      refine LedFrom.after ?_ _ _
      split
      · split
        · exact ledFrom_keep _ _
        · exact inherited_led.moduleBody _ rest
      · exact ih
    | empty tag =>
      rw [readModule]
      refine LedFrom.after ?_ _ _
      split
      · exact ledFrom_keep _ _
      · exact ih
    | close => exact ih.after _ _
    | text t => exact ih.after _ _
    | aside => exact ih.after _ _

/-! ## Loops at the end -/

/-- Where the reader gives no event, a loop calls it once and is over. A fault is what comes of
it. -/
structure StopsAtOnce {α : Type} (loop : (s : Stream) → Outcome α s) : Prop where
  ended : (loop .finished).trace = [.ended]
  failed : ∀ f, (loop (.fault f)).trace = [.failed f] ∧
    (loop (.fault f)).result = .error (.markup f)

theorem stopsAtOnce_skipOpen (depth : Nat) : StopsAtOnce (skipOpen depth) where
  ended := by rw [skipOpen]; rfl
  failed f := by rw [skipOpen]; exact ⟨rfl, rfl⟩

theorem stopsAtOnce_readText (text : String) : StopsAtOnce (readText text) where
  ended := by rw [readText]; rfl
  failed f := by rw [readText]; exact ⟨rfl, rfl⟩

theorem stopsAtOnce_body {α : Type} (unfinished : α → Unfinished)
    (child : (s : Stream) → ChildHandler α s) (a : α) :
    StopsAtOnce (fun s => body unfinished s (child s) a) where
  ended := by rw [body]; rfl
  failed f := by rw [body]; exact ⟨rfl, rfl⟩

end Descent

open Descent in
/-- Reading a document calls the reader at most once for each byte, and three times more. Each event
that the reader gives uses up some bytes, no loop goes on behind a fault or the end, and no handler
is entered again before another element has begun. -/
theorem calls_within_bytes (d : String) :
    (readModule (.ofDocument d)).result = Module.ofDocument d ∧
    (readModule (.ofDocument d)).trace.countP Mark.isCall ≤ d.utf8ByteSize + 3 ∧
    (∀ opened cs e rest, Stream.ofText opened cs = .event e rest →
      ∃ opened' behind, rest = .ofText opened' behind ∧ behind <:+ cs ∧
        byteSize behind < byteSize cs) ∧
    (StopsAtOnce readModule ∧ (∀ m, StopsAtOnce (moduleBody m)) ∧
      (∀ element e, StopsAtOnce (entryBody element e)) ∧ (∀ t, StopsAtOnce (typeBody t)) ∧
      (∀ text, StopsAtOnce (readText text)) ∧ ∀ depth, StopsAtOnce (skipOpen depth)) ∧
    ∀ before h between h' after, (readModule (.ofDocument d)).trace =
        before ++ .enter h :: (between ++ .enter h' :: after) →
      ∃ tag, .read (.start tag) ∈ between ∨ .read (.empty tag) ∈ between := by
  refine ⟨readModule_result _, ?_, fun _ _ _ _ => Stream.ofText_event,
    ⟨?_, ?_, ?_, ?_, ?_, ?_⟩, ?_⟩
  · calc (readModule (.ofDocument d)).trace.countP Mark.isCall
        ≤ (Stream.ofDocument d).length + 3 := calls_readModule_le _
      _ ≤ d.utf8ByteSize + 3 := Nat.add_le_add_right (Stream.length_ofDocument_le d) 3
  · exact ⟨rfl, fun f => ⟨rfl, rfl⟩⟩
  · exact fun m => stopsAtOnce_body _ _ m
  · exact fun element e => stopsAtOnce_body _ _ e
  · exact fun t => stopsAtOnce_body _ _ t
  · exact stopsAtOnce_readText
  · exact stopsAtOnce_skipOpen
  · intro before h between h' after htrace
    have hled : Led false (before ++ .enter h :: (between ++ .enter h' :: after)) :=
      htrace ▸ led_readModule _
    obtain ⟨mark, hmem, hopens⟩ := hled.exists_between
    cases mark with
    | read e =>
      cases e with
      | start tag => exact ⟨tag, Or.inl hmem⟩
      | empty tag => exact ⟨tag, Or.inr hmem⟩
      | close => exact absurd hopens (by simp [Mark.opens])
      | text t => exact absurd hopens (by simp [Mark.opens])
      | aside => exact absurd hopens (by simp [Mark.opens])
    | enter handler => exact absurd hopens (by simp [Mark.opens])
    | ended => exact absurd hopens (by simp [Mark.opens])
    | failed f => exact absurd hopens (by simp [Mark.opens])

end YangScript
