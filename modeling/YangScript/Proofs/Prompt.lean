import YangScript.Proofs.TreeReading

/-!
# Readers stop at the end of what they read

A reader is prompt if it does not look behind what it reads. What follows makes no difference, and
what it reads is enough by itself. So a proper beginning of what it reads gives it nothing. The
readers of all pieces but text are prompt; text goes on until something else follows.
-/

set_option autoImplicit false

namespace YangScript.Xml

open YangScript.Text

/-- Here `yields cs a rest` says that a reader takes `a` from `cs` and leaves `rest`. -/
structure Prompt {α : Type} (yields : List Char → α → List Char → Prop) : Prop where
  extend : ∀ {cs a rest}, yields cs a rest → ∀ more, yields (cs ++ more) a (rest ++ more)
  exact : ∀ {cs a rest}, yields cs a rest → ∃ used, cs = used ++ rest ∧ yields used a []

namespace Prompt

variable {α β : Type} {y z : List Char → α → List Char → Prop}

theorem unread (h : Prompt y) {used : List Char} {a : α} (hu : y used a []) (rest : List Char) :
    y (used ++ rest) a rest :=
  h.extend hu rest

/-- A proper beginning of what is read gives nothing. -/
theorem not_beginning (h : Prompt y) (hunique : ∀ cs a b r s, y cs a r → y cs b s → r = s)
    {used cut : List Char} {a b : α} {rest : List Char} (hu : y used a []) (hc : y cut b rest)
    (hp : cut <+: used) : cut = used := by
  obtain ⟨more, rfl⟩ := hp
  have hmore := hunique _ _ _ _ _ (h.extend hc more) hu
  rw [(List.append_eq_nil_iff.mp hmore).2, List.append_nil]

theorem congr (h : Prompt y) (hiff : ∀ cs a rest, z cs a rest ↔ y cs a rest) : Prompt z where
  extend hz more := (hiff _ _ _).mpr (h.extend ((hiff _ _ _).mp hz) more)
  exact hz := by
    obtain ⟨used, hcs, hu⟩ := h.exact ((hiff _ _ _).mp hz)
    exact ⟨used, hcs, (hiff _ _ _).mpr hu⟩

theorem or (hy : Prompt y) (hz : Prompt z) :
    Prompt (fun cs a rest => y cs a rest ∨ z cs a rest) where
  extend h more := h.imp (fun h => hy.extend h more) (fun h => hz.extend h more)
  exact h := by
    rcases h with h | h
    · obtain ⟨used, hcs, hu⟩ := hy.exact h
      exact ⟨used, hcs, Or.inl hu⟩
    · obtain ⟨used, hcs, hu⟩ := hz.exact h
      exact ⟨used, hcs, Or.inr hu⟩

theorem map (h : Prompt y) (f : α → β) :
    Prompt (fun cs b rest => ∃ a, f a = b ∧ y cs a rest) where
  extend hy more := by
    obtain ⟨a, hb, ha⟩ := hy
    exact ⟨a, hb, h.extend ha more⟩
  exact hy := by
    obtain ⟨a, hb, ha⟩ := hy
    obtain ⟨used, hcs, hu⟩ := h.exact ha
    exact ⟨used, hcs, a, hb, hu⟩

theorem forget (h : Prompt y) : Prompt (fun cs (_ : Unit) rest => ∃ a, y cs a rest) where
  extend hy more := by
    obtain ⟨a, ha⟩ := hy
    exact ⟨a, h.extend ha more⟩
  exact hy := by
    obtain ⟨a, ha⟩ := hy
    obtain ⟨used, hcs, hu⟩ := h.exact ha
    exact ⟨used, hcs, a, hu⟩

/-- A reader that begins behind one of some words. -/
theorem behindAny (h : Prompt y) (front : List Char → Prop) :
    Prompt (fun cs a rest => ∃ w inner, cs = w ++ inner ∧ front w ∧ y inner a rest) where
  extend hy more := by
    obtain ⟨w, inner, rfl, hw, hin⟩ := hy
    exact ⟨w, inner ++ more, List.append_assoc _ _ _, hw, h.extend hin more⟩
  exact hy := by
    obtain ⟨w, inner, rfl, hw, hin⟩ := hy
    obtain ⟨used, rfl, hu⟩ := h.exact hin
    exact ⟨w ++ used, (List.append_assoc _ _ _).symm, w, used, rfl, hw, hu⟩

theorem behind (h : Prompt y) (front : List Char) :
    Prompt (fun cs a rest => ∃ inner, cs = front ++ inner ∧ y inner a rest) := by
  refine (h.behindAny (fun w => w = front)).congr fun cs a rest => ⟨?_, ?_⟩
  · rintro ⟨inner, rfl, hin⟩
    exact ⟨front, inner, rfl, rfl, hin⟩
  · rintro ⟨w, inner, rfl, rfl, hin⟩
    exact ⟨inner, rfl, hin⟩

/-- A condition on the text that is settled by what is read. -/
theorem guard (h : Prompt y) {P : List Char → Prop}
    (hP : ∀ {used a}, y used a [] → ∀ more, P (used ++ more) ↔ P used) :
    Prompt (fun cs a rest => P cs ∧ y cs a rest) where
  extend hy more := by
    obtain ⟨hcs, hy⟩ := hy
    obtain ⟨used, rfl, hu⟩ := h.exact hy
    rw [hP hu] at hcs
    refine ⟨?_, h.extend hy more⟩
    rw [List.append_assoc, hP hu]
    exact hcs
  exact {cs a rest} hy := by
    obtain ⟨hcs, hy⟩ := hy
    obtain ⟨used, rfl, hu⟩ := h.exact hy
    exact ⟨used, rfl, (hP hu rest).mp hcs, hu⟩

end Prompt

/-- Whether a word begins a text is settled by the first character that is not in the word. -/
theorem prefix_append_iff {word used : List Char} {c : Char} (hw : c ∉ word) (hu : c ∈ used)
    (more : List Char) : word <+: used ++ more ↔ word <+: used := by
  constructor
  · intro h
    rcases List.prefix_or_prefix_of_prefix h (List.prefix_append used more) with h | h
    · exact h
    · exact absurd (h.subset hu) hw
  · intro h
    exact h.trans (List.prefix_append used more)

theorem isPrefixOf_append_of_length {mark cs : List Char} (h : mark.length ≤ cs.length)
    (more : List Char) : mark.isPrefixOf (cs ++ more) = mark.isPrefixOf cs := by
  rw [Bool.eq_iff_iff, List.isPrefixOf_iff_prefix, List.isPrefixOf_iff_prefix]
  constructor
  · intro hp
    exact List.prefix_of_prefix_length_le hp (List.prefix_append cs more) h
  · intro hp
    exact hp.trans (List.prefix_append cs more)

theorem prompt_cut? (mark : List Char) (hm : mark ≠ []) :
    Prompt (fun cs before rest => cut? mark cs = some (before, rest)) where
  extend {cs before rest} h more := by
    induction cs generalizing before with
    | nil => simp [cut?, hm] at h
    | cons c cs ih =>
      have hlength : mark.length ≤ (c :: cs).length := by
        have := length_of_cut? _ _ _ _ h
        omega
      have hsame := isPrefixOf_append_of_length hlength more
      rw [cut?] at h
      rw [List.cons_append, cut?, ← List.cons_append, hsame]
      split
      · rename_i hp
        rw [if_pos hp] at h
        simp only [Option.some.injEq, Prod.mk.injEq] at h
        rw [List.drop_append_of_le_length hlength, h.2, ← h.1]
      · rename_i hp
        rw [if_neg hp] at h
        obtain ⟨⟨b, r⟩, hcut, he⟩ := Option.map_eq_some_iff.mp h
        simp only [Prod.mk.injEq] at he
        obtain ⟨rfl, rfl⟩ := he
        rw [ih hcut]
        rfl
  exact {cs before rest} h := by
    refine ⟨before ++ mark, append_of_cut? _ _ _ _ h, ?_⟩
    induction cs generalizing before with
    | nil => simp [cut?, hm] at h
    | cons c cs ih =>
      rw [cut?] at h
      split at h
      · simp only [Option.some.injEq, Prod.mk.injEq] at h
        rw [← h.1]
        simpa using cut?_prefix mark [] hm
      · rename_i hp
        obtain ⟨⟨b, r⟩, hcut, he⟩ := Option.map_eq_some_iff.mp h
        simp only [Prod.mk.injEq] at he
        obtain ⟨rfl, rfl⟩ := he
        have hcs := append_of_cut? _ _ _ _ hcut
        have hshort : ¬ mark.isPrefixOf (c :: (b ++ mark)) = true := by
          intro hb
          rw [List.isPrefixOf_iff_prefix] at hp hb
          refine hp (hb.trans ?_)
          rw [hcs]
          exact (List.prefix_cons_inj c).mpr (List.prefix_append _ _)
        rw [List.cons_append, cut?, if_neg hshort, ih hcut]
        rfl

/-- The quote that is open behind a character. -/
def quoteAfter (quote : Option Char) (c : Char) : Option Char :=
  match quote with
  | some q => if c = q then none else some q
  | none => if isQuote c then some c else none

theorem tagEnd_cons_iff (quote : Option Char) (c : Char) (cs content rest : List Char) :
    tagEnd quote (c :: cs) = .ok (content, rest) ↔
      quote = none ∧ c = '>' ∧ content = [] ∧ rest = cs ∨
        ¬ (quote = none ∧ c = '>') ∧
          ∃ inner, content = c :: inner ∧ tagEnd (quoteAfter quote c) cs = .ok (inner, rest) := by
  have hmap : ∀ q, (tagEnd q cs).map (fun parts => (c :: parts.1, parts.2)) =
      .ok (content, rest) ↔ ∃ inner, content = c :: inner ∧ tagEnd q cs = .ok (inner, rest) := by
    intro q
    cases tagEnd q cs with
    | error e => simp [Except.map]
    | ok parts =>
      simp only [Except.map, Except.ok.injEq, Prod.mk.injEq]
      constructor
      · rintro ⟨rfl, rfl⟩
        exact ⟨parts.1, rfl, rfl⟩
      · rintro ⟨inner, rfl, rfl⟩
        exact ⟨rfl, rfl⟩
  cases quote with
  | some q =>
    rw [tagEnd, hmap]
    simp [quoteAfter]
  | none =>
    rw [tagEnd]
    split
    · rename_i hc
      simp only [hc, Except.ok.injEq, Prod.mk.injEq, true_and, not_true, false_and, or_false]
      exact ⟨fun h => ⟨h.1.symm, h.2.symm⟩, fun h => ⟨h.1.symm, h.2.symm⟩⟩
    · rename_i hc
      rw [hmap]
      simp [quoteAfter, hc]

theorem prompt_tagEnd (quote : Option Char) :
    Prompt (fun cs content rest => tagEnd quote cs = .ok (content, rest)) where
  extend {cs content rest} h more := by
    induction cs generalizing quote content with
    | nil => simp [tagEnd] at h
    | cons c cs ih =>
      rw [List.cons_append, tagEnd_cons_iff]
      rcases (tagEnd_cons_iff _ _ _ _ _).mp h with ⟨hq, hc, hcontent, rfl⟩ | ⟨hgo, inner, hi, hin⟩
      · exact Or.inl ⟨hq, hc, hcontent, rfl⟩
      · exact Or.inr ⟨hgo, inner, hi, ih _ hin⟩
  exact {cs content rest} h := by
    induction cs generalizing quote content with
    | nil => simp [tagEnd] at h
    | cons c cs ih =>
      rcases (tagEnd_cons_iff _ _ _ _ _).mp h with ⟨hq, hc, hcontent, rfl⟩ | ⟨hgo, inner, hi, hin⟩
      · exact ⟨[c], rfl, (tagEnd_cons_iff _ _ _ _ _).mpr (Or.inl ⟨hq, hc, hcontent, rfl⟩)⟩
      · obtain ⟨used, rfl, hu⟩ := ih _ hin
        exact ⟨c :: used, rfl, (tagEnd_cons_iff _ _ _ _ _).mpr (Or.inr ⟨hgo, inner, hi, hu⟩)⟩

theorem mem_of_tagEnd {quote : Option Char} {cs content rest : List Char}
    (h : tagEnd quote cs = .ok (content, rest)) : '>' ∈ cs := by
  induction cs generalizing quote content with
  | nil => simp [tagEnd] at h
  | cons c cs ih =>
    rcases (tagEnd_cons_iff _ _ _ _ _).mp h with ⟨-, rfl, -⟩ | ⟨-, inner, -, hin⟩
    · exact List.mem_cons_self
    · exact List.mem_cons_of_mem c (ih hin)

/-- Whether the quotes of a declaration count, which is read from after its `<`. -/
def Quoting (cs : List Char) : Prop := ∃ word ∈ quotingWords, word <+: cs

/-- Whether a declaration is a processing instruction or a comment. -/
def BeginsAside (cs : List Char) : Prop := ['?'] <+: cs ∨ ['!', '-', '-'] <+: cs

theorem afterDeclaration?_iff (cs rest : List Char) :
    afterDeclaration? cs = some rest ↔
      ((∃ inner, cs = ['?'] ++ inner ∧ ∃ b, cut? instructionMark inner = some (b, rest)) ∨
        ∃ inner, cs = ['!', '-', '-'] ++ inner ∧ ∃ b, cut? commentMark inner = some (b, rest)) ∨
      ¬ BeginsAside cs ∧
        ((Quoting cs ∧ ∃ b, tagEnd none cs = .ok (b, rest)) ∨
          ¬ Quoting cs ∧ ∃ b, cut? ['>'] cs = some (b, rest)) := by
  have hcut : ∀ mark inner, (cut? mark inner).map Prod.snd = some rest ↔
      ∃ b, cut? mark inner = some (b, rest) := by
    intro mark inner
    simp [Option.map_eq_some_iff]
  unfold afterDeclaration?
  dsimp only
  split
  · rw [hcut]
    simp [BeginsAside]
  · rw [hcut]
    simp [BeginsAside]
  · rename_i hinstruction hcomment
    have hno : ¬ BeginsAside cs := by
      rintro (⟨inner, rfl⟩ | ⟨inner, rfl⟩)
      · exact hinstruction inner rfl
      · exact hcomment inner rfl
    have hquoting : quotingWords.any (fun word => word.isPrefixOf cs) = true ↔ Quoting cs := by
      simp [Quoting, List.isPrefixOf_iff_prefix]
    have haside : ¬ ((∃ inner, cs = ['?'] ++ inner ∧
        ∃ b, cut? instructionMark inner = some (b, rest)) ∨
          ∃ inner, cs = ['!', '-', '-'] ++ inner ∧
            ∃ b, cut? commentMark inner = some (b, rest)) := by
      rintro (⟨inner, rfl, -⟩ | ⟨inner, rfl, -⟩)
      · exact hinstruction inner rfl
      · exact hcomment inner rfl
    rw [or_iff_right haside, and_iff_right hno]
    change (if quotingWords.any (fun word => word.isPrefixOf cs) = true then _ else _) = _ ↔ _
    by_cases hq : Quoting cs
    · rw [if_pos (hquoting.mpr hq)]
      cases tagEnd none cs with
      | error e => simp [hq]
      | ok parts =>
        obtain ⟨content, after⟩ := parts
        simp [hq]
    · rw [if_neg (mt hquoting.mp hq), hcut]
      simp [hq]

theorem quoting_append_iff {used : List Char} (h : '>' ∈ used) (more : List Char) :
    Quoting (used ++ more) ↔ Quoting used := by
  refine exists_congr fun word => and_congr_right fun hw => ?_
  have hfree : '>' ∉ word := fun hm => (not_mem_of_mem_quotingWords hw '>' hm).2 rfl
  exact prefix_append_iff hfree h more

theorem beginsAside_append_iff {used : List Char} (h : '>' ∈ used) (more : List Char) :
    BeginsAside (used ++ more) ↔ BeginsAside used :=
  or_congr (prefix_append_iff (by decide) h more) (prefix_append_iff (by decide) h more)

theorem prompt_afterDeclaration? :
    Prompt (fun cs (_ : Unit) rest => afterDeclaration? cs = some rest) := by
  have hinstruction := (prompt_cut? instructionMark (by decide)).forget.behind ['?']
  have hcomment := (prompt_cut? commentMark (by decide)).forget.behind ['!', '-', '-']
  have hclosed : ∀ {used : List Char}, (∃ b, cut? ['>'] used = some (b, [])) → '>' ∈ used := by
    rintro used ⟨b, hb⟩
    rw [append_of_cut? _ _ _ _ hb]
    simp
  have hended : ∀ {used : List Char}, (∃ b, tagEnd none used = .ok (b, [])) → '>' ∈ used := by
    rintro used ⟨b, hb⟩
    exact mem_of_tagEnd hb
  have hquoting : Prompt (fun cs (_ : Unit) rest =>
      Quoting cs ∧ ∃ b, tagEnd none cs = .ok (b, rest)) :=
    (prompt_tagEnd none).forget.guard fun hu more => quoting_append_iff (hended hu) more
  have hbare : Prompt (fun cs (_ : Unit) rest =>
      ¬ Quoting cs ∧ ∃ b, cut? ['>'] cs = some (b, rest)) :=
    (prompt_cut? ['>'] (by decide)).forget.guard fun hu more =>
      not_congr (quoting_append_iff (hclosed hu) more)
  have hother := (hquoting.or hbare).guard (P := fun cs => ¬ BeginsAside cs) fun hu more => by
    have hm := hu.elim (fun h => hended h.2) (fun h => hclosed h.2)
    exact not_congr (beginsAside_append_iff hm more)
  exact ((hinstruction.or hcomment).or hother).congr fun cs _ rest => afterDeclaration?_iff cs rest

theorem prompt_afterSubset? :
    Prompt (fun cs (_ : Unit) rest => afterSubset? cs = some rest) where
  extend {cs u rest} h more := by
    fun_induction afterSubset? cs with
    | case1 => simp at h
    | case2 cs =>
      obtain ⟨⟨b, r⟩, hcut, rfl⟩ := Option.map_eq_some_iff.mp h
      rw [List.cons_append, afterSubset?, (prompt_cut? ['>'] (by decide)).extend hcut more]
      rfl
    | case3 => simp at h
    | case4 cs mid hm hl ih =>
      have hmore := prompt_afterDeclaration?.extend (a := u) hm more
      rw [List.cons_append, afterSubset?_declaration hmore]
      exact ih h
    | case5 c cs hclose hopen ih =>
      rw [List.cons_append, afterSubset?_plain hclose hopen]
      exact ih h
  exact {cs u rest} h := by
    fun_induction afterSubset? cs with
    | case1 => simp at h
    | case2 cs =>
      obtain ⟨⟨b, r⟩, hcut, rfl⟩ := Option.map_eq_some_iff.mp h
      obtain ⟨used, rfl, hu⟩ := (prompt_cut? ['>'] (by decide)).exact hcut
      refine ⟨']' :: used, rfl, ?_⟩
      rw [afterSubset?, hu]
      rfl
    | case3 => simp at h
    | case4 cs mid hm hl ih =>
      obtain ⟨first, hcs, hfirst⟩ := prompt_afterDeclaration?.exact (a := u) hm
      obtain ⟨used, rfl, hu⟩ := ih h
      have hboth := prompt_afterDeclaration?.unread (a := u) hfirst used
      refine ⟨'<' :: (first ++ used), by simp [hcs], ?_⟩
      rw [afterSubset?_declaration hboth]
      exact hu
    | case5 c cs hclose hopen ih =>
      obtain ⟨used, rfl, hu⟩ := ih h
      refine ⟨c :: used, rfl, ?_⟩
      rw [afterSubset?_plain hclose hopen]
      exact hu

theorem afterDoctype?_cons_iff (quote : Option Char) (c : Char) (cs rest : List Char) :
    afterDoctype? quote (c :: cs) = some rest ↔
      quote = none ∧ c = '>' ∧ rest = cs ∨
      quote = none ∧ c = '[' ∧ afterSubset? cs = some rest ∨
      ¬ (quote = none ∧ (c = '>' ∨ c = '[')) ∧
        afterDoctype? (quoteAfter quote c) cs = some rest := by
  cases quote with
  | some q =>
    rw [afterDoctype?]
    simp [quoteAfter]
  | none =>
    rw [afterDoctype?]
    by_cases hclose : c = '>'
    · simp [hclose, eq_comm]
    · by_cases hopen : c = '['
      · simp [hopen]
      · simp [hclose, hopen, quoteAfter]

theorem prompt_afterDoctype? (quote : Option Char) :
    Prompt (fun cs (_ : Unit) rest => afterDoctype? quote cs = some rest) where
  extend {cs u rest} h more := by
    induction cs generalizing quote with
    | nil => simp [afterDoctype?] at h
    | cons c cs ih =>
      rw [List.cons_append, afterDoctype?_cons_iff]
      rcases (afterDoctype?_cons_iff _ _ _ _).mp h with ⟨hq, hc, rfl⟩ | ⟨hq, hc, hin⟩ | ⟨hgo, hin⟩
      · exact Or.inl ⟨hq, hc, rfl⟩
      · exact Or.inr (Or.inl ⟨hq, hc, prompt_afterSubset?.extend (a := u) hin more⟩)
      · exact Or.inr (Or.inr ⟨hgo, ih _ hin⟩)
  exact {cs u rest} h := by
    induction cs generalizing quote with
    | nil => simp [afterDoctype?] at h
    | cons c cs ih =>
      rcases (afterDoctype?_cons_iff _ _ _ _).mp h with ⟨hq, hc, rfl⟩ | ⟨hq, hc, hin⟩ | ⟨hgo, hin⟩
      · exact ⟨[c], rfl, (afterDoctype?_cons_iff _ _ _ _).mpr (Or.inl ⟨hq, hc, rfl⟩)⟩
      · obtain ⟨used, rfl, hu⟩ := prompt_afterSubset?.exact (a := u) hin
        exact ⟨c :: used, rfl, (afterDoctype?_cons_iff _ _ _ _).mpr (Or.inr (Or.inl ⟨hq, hc, hu⟩))⟩
      · obtain ⟨used, rfl, hu⟩ := ih _ hin
        exact ⟨c :: used, rfl, (afterDoctype?_cons_iff _ _ _ _).mpr (Or.inr (Or.inr ⟨hgo, hu⟩))⟩

theorem head?_append_of_ne_nil {used : List Char} (h : used ≠ []) (more : List Char) :
    (used ++ more).head? = used.head? := by
  cases used with
  | nil => exact absurd rfl h
  | cons c cs => rfl

theorem dropWhile_append_of_ne_nil {p : Char → Bool} {used : List Char} (h : used.dropWhile p ≠ [])
    (more : List Char) : (used ++ more).dropWhile p = used.dropWhile p ++ more := by
  rw [List.dropWhile_append, if_neg]
  simpa using h

theorem dropWhile_of_afterDoctype? {cs rest : List Char} (h : afterDoctype? none cs = some rest) :
    cs.dropWhile isBlank ≠ [] := by
  induction cs with
  | nil => simp [afterDoctype?] at h
  | cons c cs ih =>
    by_cases hb : isBlank c = true
    · have hquote := isQuote_of_isBlank hb
      have hclose : c ≠ '>' := isBlank_ne hb rfl
      have hopen : c ≠ '[' := isBlank_ne hb rfl
      rw [List.dropWhile_cons_of_pos hb]
      refine ih ?_
      rw [afterDoctype?] at h
      simpa [hclose, hopen, hquote] using h
    · rw [List.dropWhile_cons_of_neg hb]
      simp

namespace Step

theorem asideTo_iff (mark : List Char) (f : MarkupFault) (cs : List Char) (p : Piece)
    (rest : List Char) :
    asideTo mark f cs = .piece p rest ↔ ∃ b, Piece.aside = p ∧ cut? mark cs = some (b, rest) := by
  rw [asideTo]
  cases cut? mark cs with
  | none => simp
  | some parts =>
    obtain ⟨b, r⟩ := parts
    simp

theorem prompt_ofCData : Prompt (fun cs p rest => ofCData cs = .piece p rest) := by
  have hmark := (prompt_cut? cdataMark (by decide)).map (fun _ => Piece.aside)
  refine (hmark.behind cdataWord).congr fun cs p rest => ?_
  unfold ofCData
  dsimp only
  split
  · rename_i hp
    obtain ⟨inner, rfl⟩ := List.isPrefixOf_iff_prefix.mp hp
    rw [List.drop_left, asideTo_iff]
    simp [cdataWord]
  · rename_i hp
    constructor
    · intro h
      simp at h
    · rintro ⟨inner, rfl, -⟩
      exact absurd (List.isPrefixOf_iff_prefix.mpr (List.prefix_append _ _)) hp

theorem prompt_ofComment : Prompt (fun cs p rest => ofComment cs = .piece p rest) := by
  have hmark := (prompt_cut? commentMark (by decide)).map (fun _ => Piece.aside)
  refine (hmark.behind ['-']).congr fun cs p rest => ?_
  unfold ofComment
  split
  · rw [asideTo_iff]
    simp
  · rename_i hp
    constructor
    · intro h
      simp at h
    · rintro ⟨inner, rfl, -⟩
      exact absurd rfl (hp inner)

theorem prompt_ofInstruction : Prompt (fun cs p rest => ofInstruction cs = .piece p rest) := by
  have hmark := (prompt_cut? instructionMark (by decide)).map (fun _ => Piece.aside)
  have hguard := hmark.guard (P := fun cs => cs.head? ≠ some '>') fun {used p} hu more => by
    obtain ⟨b, -, hcut⟩ := hu
    have hne : used ≠ [] := by
      rw [append_of_cut? _ _ _ _ hcut]
      simp [instructionMark]
    rw [head?_append_of_ne_nil hne]
  refine hguard.congr fun cs p rest => ?_
  unfold ofInstruction
  split
  · simp
  · rename_i hfirst
    rw [asideTo_iff]
    refine (and_iff_right ?_).symm
    intro hhead
    obtain ⟨inner, rfl⟩ := List.head?_eq_some_iff.mp hhead
    exact hfirst inner rfl

/-- The keyword of a document type. -/
def IsDoctypeWord (w : List Char) : Prop := w.map Char.toUpper = doctypeWord

theorem ofDoctype_iff (cs : List Char) (p : Piece) (rest : List Char) :
    ofDoctype cs = .piece p rest ↔
      ∃ w body, cs = w ++ body ∧ IsDoctypeWord w ∧ (body.dropWhile isBlank).head? ≠ some '>' ∧
        ∃ _ : Unit, Piece.aside = p ∧ afterDoctype? none body = some rest := by
  have hlength : ∀ {w}, IsDoctypeWord w → w.length = 7 := by
    intro w hw
    simpa [doctypeWord] using congrArg List.length hw
  unfold ofDoctype
  dsimp only
  split
  · rename_i hword
    have hsplit : ∀ {w body}, cs = w ++ body → IsDoctypeWord w → body = cs.drop 7 := by
      rintro w body rfl hw
      rw [← hlength hw, List.drop_left]
    constructor
    · intro h
      refine ⟨cs.take 7, cs.drop 7, (List.take_append_drop 7 cs).symm, hword, ?_⟩
      split at h
      · simp at h
      · rename_i hnamed
        split at h
        · simp at h
        · rename_i after hafter
          simp only [piece.injEq] at h
          refine ⟨?_, (), h.1, h.2 ▸ hafter⟩
          intro hhead
          obtain ⟨inner, hinner⟩ := List.head?_eq_some_iff.mp hhead
          exact hnamed inner hinner
    · rintro ⟨w, body, hcs, hw, hnamed, -, rfl, hafter⟩
      rw [hsplit hcs hw] at hnamed hafter
      split
      · rename_i inner hinner
        exact absurd (congrArg List.head? hinner) hnamed
      · split
        · rename_i hnone
          exact absurd (hafter.symm.trans hnone) (by simp)
        · rename_i after hsome
          rw [Option.some.inj (hafter.symm.trans hsome)]
  · rename_i hword
    constructor
    · intro h
      simp at h
    · rintro ⟨w, body, rfl, hw, -⟩
      refine absurd ?_ hword
      change (((w ++ body).take 7).map Char.toUpper) = doctypeWord
      rw [← hlength hw, List.take_left]
      exact hw

theorem prompt_ofDoctype : Prompt (fun cs p rest => ofDoctype cs = .piece p rest) := by
  have hafter := (prompt_afterDoctype? none).map (fun _ => Piece.aside)
  have hguard := hafter.guard (P := fun cs => (cs.dropWhile isBlank).head? ≠ some '>')
    fun {used p} hu more => by
      obtain ⟨-, -, hafter⟩ := hu
      have hne := dropWhile_of_afterDoctype? hafter
      rw [dropWhile_append_of_ne_nil hne, head?_append_of_ne_nil hne]
  exact (hguard.behindAny IsDoctypeWord).congr ofDoctype_iff

theorem ofTag_iff (cs : List Char) (p : Piece) (rest : List Char) :
    ofTag cs = .piece p rest ↔
      ∃ content, Piece.ofTag content = p ∧ tagEnd none cs = .ok (content, rest) := by
  unfold ofTag
  split
  · rename_i h
    simp [h]
  · rename_i h
    simp [h]
  · rename_i h
    simp only [h, piece.injEq, Except.ok.injEq, Prod.mk.injEq]
    constructor
    · rintro ⟨hp, hrest⟩
      exact ⟨_, hp, rfl, hrest⟩
    · rintro ⟨content, hp, rfl, hrest⟩
      exact ⟨hp, hrest⟩

theorem prompt_ofTag : Prompt (fun cs p rest => ofTag cs = .piece p rest) :=
  ((prompt_tagEnd none).map Piece.ofTag).congr ofTag_iff

theorem ofMarkup_iff (cs : List Char) (p : Piece) (rest : List Char) :
    ofMarkup cs = .piece p rest ↔
      (∃ inner, cs = ['?'] ++ inner ∧ ofInstruction inner = .piece p rest) ∨
      (∃ inner, cs = ['!', '['] ++ inner ∧ ofCData inner = .piece p rest) ∨
      (∃ inner, cs = ['!', '-'] ++ inner ∧ ofComment inner = .piece p rest) ∨
      (∃ inner, cs = ['!'] ++ inner ∧ (inner.head? = some 'D' ∨ inner.head? = some 'd') ∧
        ofDoctype inner = .piece p rest) ∨
      (cs.head? ≠ some '?' ∧ cs.head? ≠ some '!') ∧ ofTag cs = .piece p rest := by
  unfold ofMarkup
  split
  · simp [ofTag, tagEnd]
  · simp
  · rename_i inner
    split
    · simp
    · simp
    · simp
    · simp
    · rename_i hcdata hcomment hupper hlower
      constructor
      · intro h
        simp at h
      · rintro (⟨body, hcs, -⟩ | ⟨body, hcs, -⟩ | ⟨body, hcs, -⟩ | ⟨body, hcs, hhead, -⟩ |
          ⟨hfirst, -⟩)
        · simp at hcs
        · exact absurd (List.cons.inj hcs).2 (hcdata body)
        · exact absurd (List.cons.inj hcs).2 (hcomment body)
        · obtain rfl := (List.cons.inj hcs).2
          rcases hhead with hhead | hhead
          · obtain ⟨tail, htail⟩ := List.head?_eq_some_iff.mp hhead
            exact absurd htail (hupper tail)
          · obtain ⟨tail, htail⟩ := List.head?_eq_some_iff.mp hhead
            exact absurd htail (hlower tail)
        · simp at hfirst
  · rename_i hne hinstruction hdeclaration
    constructor
    · intro h
      refine Or.inr (Or.inr (Or.inr (Or.inr ⟨⟨?_, ?_⟩, h⟩)))
      · intro hhead
        obtain ⟨tail, htail⟩ := List.head?_eq_some_iff.mp hhead
        exact hinstruction tail htail
      · intro hhead
        obtain ⟨tail, htail⟩ := List.head?_eq_some_iff.mp hhead
        exact hdeclaration tail htail
    · rintro (⟨body, hcs, -⟩ | ⟨body, hcs, -⟩ | ⟨body, hcs, -⟩ | ⟨body, hcs, -⟩ | ⟨-, h⟩)
      · exact absurd hcs (hinstruction body)
      · exact absurd hcs (hdeclaration ('[' :: body))
      · exact absurd hcs (hdeclaration ('-' :: body))
      · exact absurd hcs (hdeclaration body)
      · exact h

theorem ne_nil_of_ofTag {cs rest : List Char} {p : Piece} (h : ofTag cs = .piece p rest) :
    cs ≠ [] := by
  rintro rfl
  simp [ofTag, tagEnd] at h

theorem ne_nil_of_ofDoctype {cs rest : List Char} {p : Piece} (h : ofDoctype cs = .piece p rest) :
    cs ≠ [] := by
  rintro rfl
  simp [ofDoctype] at h

theorem prompt_ofMarkup : Prompt (fun cs p rest => ofMarkup cs = .piece p rest) := by
  have hdoctype := prompt_ofDoctype.guard
    (P := fun cs => cs.head? = some 'D' ∨ cs.head? = some 'd') fun hu more => by
      rw [head?_append_of_ne_nil (ne_nil_of_ofDoctype hu)]
  have htag := prompt_ofTag.guard
    (P := fun cs => cs.head? ≠ some '?' ∧ cs.head? ≠ some '!') fun hu more => by
      rw [head?_append_of_ne_nil (ne_nil_of_ofTag hu)]
  exact ((prompt_ofInstruction.behind ['?']).or ((prompt_ofCData.behind ['!', '[']).or
    ((prompt_ofComment.behind ['!', '-']).or ((hdoctype.behind ['!']).or htag)))).congr ofMarkup_iff

/-- The text in the name of a reference. -/
def inReference (c : Char) : Bool := !(c == ';' || c == '&' || c == '<')

theorem ofReference_iff (cs : List Char) (p : Piece) (rest : List Char) :
    ofReference cs = .piece p rest ↔ Piece.aside = p ∧ cs.dropWhile inReference = ';' :: rest := by
  have hname : cs.dropWhile (fun c => !(c == ';' || c == '&' || c == '<')) =
      cs.dropWhile inReference := rfl
  rw [ofReference, hname]
  split
  · rename_i heq
    simp [heq]
  · rename_i hno
    constructor
    · intro h
      simp at h
    · rintro ⟨-, h⟩
      exact absurd h (hno rest)

theorem prompt_ofReference : Prompt (fun cs p rest => ofReference cs = .piece p rest) where
  extend {cs p rest} h more := by
    rw [ofReference_iff] at h ⊢
    have hne : cs.dropWhile inReference ≠ [] := by simp [h.2]
    rw [dropWhile_append_of_ne_nil hne, h.2]
    exact ⟨h.1, rfl⟩
  exact {cs p rest} h := by
    rw [ofReference_iff] at h
    have hcs : cs = cs.takeWhile inReference ++ [';'] ++ rest := by
      rw [List.append_assoc, List.singleton_append, ← h.2, List.takeWhile_append_dropWhile]
    refine ⟨_, hcs, (ofReference_iff _ _ _).mpr ⟨h.1, ?_⟩⟩
    rw [List.dropWhile_append_of_pos (fun c hc => List.all_eq_true.mp List.all_takeWhile c hc)]
    rfl

end Step

def BeginsMarkup (cs : List Char) : Prop := cs.head? = some '<' ∨ cs.head? = some '&'

theorem beginsMarkup_iff (cs : List Char) (p : Piece) (rest : List Char) :
    BeginsMarkup cs ∧ Step.ofText cs = .piece p rest ↔
      (∃ inner, cs = ['<'] ++ inner ∧ Step.ofMarkup inner = .piece p rest) ∨
        ∃ inner, cs = ['&'] ++ inner ∧ Step.ofReference inner = .piece p rest := by
  constructor
  · rintro ⟨hhead | hhead, h⟩
    · obtain ⟨inner, rfl⟩ := List.head?_eq_some_iff.mp hhead
      exact Or.inl ⟨inner, rfl, h⟩
    · obtain ⟨inner, rfl⟩ := List.head?_eq_some_iff.mp hhead
      exact Or.inr ⟨inner, rfl, h⟩
  · rintro (⟨inner, rfl, h⟩ | ⟨inner, rfl, h⟩)
    · exact ⟨Or.inl rfl, h⟩
    · exact ⟨Or.inr rfl, h⟩

/-- Whatever begins with markup is read promptly. -/
theorem prompt_markup :
    Prompt (fun cs p rest => BeginsMarkup cs ∧ Step.ofText cs = .piece p rest) :=
  ((Step.prompt_ofMarkup.behind ['<']).or (Step.prompt_ofReference.behind ['&'])).congr
    beginsMarkup_iff

theorem BeginsMarkup.append {cs : List Char} (h : BeginsMarkup cs) (more : List Char) :
    BeginsMarkup (cs ++ more) := by
  cases cs with
  | nil => simp [BeginsMarkup] at h
  | cons c cs => exact h

theorem BeginsMarkup.endsText {cs : List Char} (h : BeginsMarkup cs) : EndsText cs := by
  intro c hc
  rcases h with h | h <;> rw [h, Option.some.injEq] at hc <;> rw [← hc] <;> rfl

/-- Text stands before markup or before the end. -/
theorem exists_charData (cs : List Char) :
    ∃ (t : CharData) (tail : List Char),
      cs = t.chars ++ tail ∧ (tail = [] ∨ BeginsMarkup tail) := by
  induction cs with
  | nil => exact ⟨.none, [], rfl, Or.inl rfl⟩
  | cons c cs ih =>
    by_cases hc : inText c = true
    · obtain ⟨t, tail, hcs, htail⟩ := ih
      have hlegal : ∀ d ∈ c :: t.chars, inText d = true := by
        intro d hd
        rcases List.mem_cons.mp hd with rfl | hd
        · exact hc
        · exact t.legal d hd
      exact ⟨⟨c :: t.chars, hlegal⟩, tail, congrArg (List.cons c) hcs, htail⟩
    · refine ⟨.none, c :: cs, rfl, Or.inr ?_⟩
      have hmark : c = '<' ∨ c = '&' :=
        Decidable.or_iff_not_imp_left.mpr (by simpa [inText] using hc)
      rcases hmark with rfl | rfl
      · exact Or.inl rfl
      · exact Or.inr rfl

/-- A proper beginning of a piece of markup is no piece. -/
theorem not_piece_of_beginning {used cut : List Char} {p : Piece}
    (hu : BeginsMarkup used ∧ Step.ofText used = .piece p []) (hp : cut <+: used)
    (hne : cut ≠ used) (q : Piece) (rest : List Char) : Step.ofText cut ≠ .piece q rest := by
  intro h
  have hunique : ∀ cs (a b : Piece) r s, (BeginsMarkup cs ∧ Step.ofText cs = .piece a r) →
      (BeginsMarkup cs ∧ Step.ofText cs = .piece b s) → r = s := by
    rintro cs a b r s ⟨-, ha⟩ ⟨-, hb⟩
    rw [ha] at hb
    exact (Step.piece.inj hb).2
  cases cut with
  | nil => simp [Step.ofText] at h
  | cons c cs =>
    have hbegins : BeginsMarkup (c :: cs) := by
      obtain ⟨more, rfl⟩ := hp
      exact hu.1
    exact hne (prompt_markup.not_beginning hunique hu ⟨hbegins, h⟩ hp)

end YangScript.Xml
