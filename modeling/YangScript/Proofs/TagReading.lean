import YangScript.Proofs.Markup

/-!
# Tags are read as they are written

The reader finds the end of a written tag, tells the three kinds of tags apart, and gets back the
name and the attributes. Quotes hide `>`, so what is shown of the end of a tag is stated for texts
in which every quote is closed; names, attributes and blanks are such texts.
-/

set_option autoImplicit false

namespace YangScript.Xml

open YangScript.Text

theorem isNameChar_ne {c d : Char} (h : isNameChar c = true) (hd : isNameChar d = false) :
    c ≠ d := by
  intro e
  rw [e, hd] at h
  exact absurd h (by decide)

theorem isBlank_ne {c d : Char} (h : isBlank c = true) (hd : isBlank d = false) : c ≠ d := by
  intro e
  rw [e, hd] at h
  exact absurd h (by decide)

theorem isBlank_of_isNameChar {c : Char} (h : isNameChar c = true) : isBlank c = false := by
  simp only [isNameChar, Bool.not_eq_true', Bool.or_eq_false_iff] at h
  exact h.1.1.1.1.1.1.1

theorem isQuote_of_isNameChar {c : Char} (h : isNameChar c = true) : isQuote c = false := by
  simp only [isNameChar, Bool.not_eq_true', Bool.or_eq_false_iff] at h
  exact h.1.1.1.1.1.1.2

theorem isBlank_of_isQuote {c : Char} (h : isQuote c = true) : isBlank c = false := by
  simp only [isQuote, Bool.or_eq_true, beq_iff_eq] at h
  rcases h with rfl | rfl <;> decide

theorem isQuote_of_isBlank {c : Char} (h : isBlank c = true) : isQuote c = false := by
  cases hq : isQuote c with
  | false => rfl
  | true =>
    rw [isBlank_of_isQuote hq] at h
    exact absurd h (by decide)

/-- Every quote in `cs` is closed and no `>` stands outside quotes. -/
def Passes (cs : List Char) : Prop :=
  ∀ rest, tagEnd none (cs ++ rest) =
    (tagEnd none rest).map (fun parts => (cs ++ parts.1, parts.2))

theorem passes_nil : Passes [] := by
  intro rest
  cases h : tagEnd none rest <;> simp [h, Except.map]

theorem Passes.append {as bs : List Char} (ha : Passes as) (hb : Passes bs) :
    Passes (as ++ bs) := by
  intro rest
  rw [List.append_assoc, ha, hb]
  cases tagEnd none rest <;> simp [Except.map]

theorem passes_flatMap {α : Type} (f : α → List Char) (as : List α) (h : ∀ a ∈ as, Passes (f a)) :
    Passes (as.flatMap f) := by
  induction as with
  | nil => exact passes_nil
  | cons a as ih =>
    rw [List.flatMap_cons]
    exact (h a (by simp)).append (ih (fun b hb => h b (by simp [hb])))

theorem passes_char {c : Char} (hq : isQuote c = false) (hc : c ≠ '>') : Passes [c] := by
  intro rest
  simp [tagEnd, hq, hc]

theorem passes_bare (cs : List Char) (h : ∀ c ∈ cs, isQuote c = false ∧ c ≠ '>') :
    Passes cs := by
  induction cs with
  | nil => exact passes_nil
  | cons c cs ih =>
    have hc := h c (by simp)
    exact (passes_char hc.1 hc.2).append (ih (fun d hd => h d (by simp [hd])))

theorem tagEnd_quoted (quote : Char) (body rest : List Char) (h : quote ∉ body) :
    tagEnd (some quote) (body ++ quote :: rest) =
      (tagEnd none rest).map (fun parts => (body ++ quote :: parts.1, parts.2)) := by
  induction body with
  | nil => simp [tagEnd]
  | cons c body ih =>
    have hc : ¬ c = quote := fun e => h (by simp [e])
    rw [List.cons_append, tagEnd]
    simp only [hc, if_false]
    rw [ih (fun hm => h (by simp [hm]))]
    cases tagEnd none rest <;> simp [Except.map]

theorem passes_quoted {quote : Char} (hq : isQuote quote = true) {body : List Char}
    (h : quote ∉ body) : Passes (quote :: body ++ [quote]) := by
  intro rest
  have hc : ¬ quote = '>' := by
    rintro rfl
    exact absurd hq (by decide)
  rw [List.cons_append, List.cons_append, List.append_assoc, tagEnd]
  simp only [hc, hq, if_false, if_true, List.singleton_append]
  rw [tagEnd_quoted quote body rest h]
  cases tagEnd none rest <;> simp [Except.map]

theorem tagEnd_of_passes {cs : List Char} (h : Passes cs) (rest : List Char) :
    tagEnd none (cs ++ '>' :: rest) = .ok (cs, rest) := by
  rw [h]
  simp [tagEnd, Except.map]

theorem Blanks.passes (b : Blanks) : Passes b.chars :=
  passes_bare _ fun c hc =>
    ⟨isQuote_of_isBlank (b.blank c hc), isBlank_ne (b.blank c hc) (by decide)⟩

theorem Name.passes (n : Name) : Passes n.chars :=
  passes_bare _ fun c hc =>
    ⟨isQuote_of_isNameChar (n.legal c hc), isNameChar_ne (n.legal c hc) (by decide)⟩

theorem AttributeText.passes (a : AttributeText) : Passes a.chars := by
  have hvalue := passes_quoted a.quoting a.closed
  have hequals := (passes_char (by decide : isQuote '=' = false) (by decide)).append a.after.passes
  have hall := (((a.lead.passes.append a.key.passes).append a.before.passes).append
    hequals).append hvalue
  simpa [AttributeText.chars] using hall

theorem TagText.passes (t : TagText) : Passes t.chars :=
  (t.name.passes.append
    (passes_flatMap AttributeText.chars t.attributes (fun a _ => a.passes))).append t.trail.passes

theorem Name.exists_cons (n : Name) : ∃ c cs, n.chars = c :: cs ∧ isNameChar c = true := by
  obtain ⟨c, cs, h⟩ := List.exists_cons_of_ne_nil n.present
  exact ⟨c, cs, h, n.legal c (by simp [h])⟩

theorem Blanks.getLast?_ne_slash (b : Blanks) : b.chars.getLast? ≠ some '/' := by
  intro h
  have := b.blank '/' (List.mem_of_getLast? h)
  exact absurd this (by decide)

theorem Name.getLast?_ne_slash (n : Name) : n.chars.getLast? ≠ some '/' := by
  intro h
  have := n.legal '/' (List.mem_of_getLast? h)
  exact absurd this (by decide)

theorem AttributeText.getLast?_flatMap (as : List AttributeText) :
    (as.flatMap chars).getLast? ≠ some '/' := by
  induction as with
  | nil => simp
  | cons a as ih =>
    rw [List.flatMap_cons, List.getLast?_append]
    cases hl : (as.flatMap chars).getLast? with
    | some c =>
      rw [hl] at ih
      simpa using ih
    | none =>
      have hq : a.quote ≠ '/' := by
        intro e
        have := a.quoting
        rw [e] at this
        exact absurd this (by decide)
      simpa [AttributeText.chars, List.getLast?_cons, List.getLast?_append] using hq

/-- A written tag does not end like an empty one. -/
theorem TagText.getLast?_ne_slash (t : TagText) : t.chars.getLast? ≠ some '/' := by
  intro h
  simp only [TagText.chars, List.getLast?_append, Option.or_eq_some_iff] at h
  rcases h with h | ⟨_, h | ⟨_, h⟩⟩
  · exact t.trail.getLast?_ne_slash h
  · exact AttributeText.getLast?_flatMap t.attributes h
  · exact t.name.getLast?_ne_slash h

theorem Step.ofMarkup_tag {c : Char} (hc : isNameChar c = true ∨ c = '/') (cs : List Char) :
    ofMarkup (c :: cs) = ofTag (c :: cs) := by
  have hq : c ≠ '?' := by
    rcases hc with hc | rfl
    · exact isNameChar_ne hc (by decide)
    · decide
  have hb : c ≠ '!' := by
    rcases hc with hc | rfl
    · exact isNameChar_ne hc (by decide)
    · decide
  unfold ofMarkup
  split
  · contradiction
  · rename_i heq
    exact absurd (List.cons.inj heq).1 hq
  · rename_i heq
    exact absurd (List.cons.inj heq).1 hb
  · rfl

theorem Step.ofText_markup (cs : List Char) : ofText ('<' :: cs) = ofMarkup cs := by
  simp [ofText, isBlank]

def TagText.tag (t : TagText) : Tag := Tag.ofContent t.chars

theorem Piece.ofTag_start (t : TagText) : Piece.ofTag t.chars = .start t.tag := by
  obtain ⟨c, cs, hc, hn⟩ := t.name.exists_cons
  have hslash : c ≠ '/' := isNameChar_ne hn (by decide)
  unfold Piece.ofTag
  split
  · rename_i name heq
    rw [TagText.chars, hc] at heq
    exact absurd (List.cons.inj heq).1 hslash
  · rw [if_neg t.getLast?_ne_slash]
    rfl

theorem Piece.ofTag_empty (t : TagText) : Piece.ofTag (t.chars ++ ['/']) = .empty t.tag := by
  obtain ⟨c, cs, hc, hn⟩ := t.name.exists_cons
  have hslash : c ≠ '/' := isNameChar_ne hn (by decide)
  unfold Piece.ofTag
  split
  · rename_i name heq
    rw [TagText.chars, hc] at heq
    exact absurd (List.cons.inj heq).1 hslash
  · rw [if_pos (by simp), List.dropLast_concat]
    rfl

theorem endName_name (n : Name) (b : Blanks) :
    endName (n.chars ++ b.chars) = String.ofList n.chars := by
  obtain ⟨c, cs, hc⟩ := List.exists_cons_of_ne_nil
    (show n.chars.reverse ≠ [] by simpa using n.present)
  have hdrop : dropEndWhile isBlank (n.chars ++ b.chars) = n.chars := by
    have hb : ∀ d ∈ b.chars.reverse, isBlank d = true :=
      fun d hd => b.blank d (List.mem_reverse.mp hd)
    have hn : isBlank c = false :=
      isBlank_of_isNameChar (n.legal c (List.mem_reverse.mp (by simp [hc])))
    rw [dropEndWhile, List.reverse_append, List.dropWhile_append_of_pos hb, hc,
      List.dropWhile_cons_of_neg (by simp [hn]), ← hc, List.reverse_reverse]
  simp [endName, hdrop, n.present]

theorem Step.ofText_start (t : TagText) (rest : List Char) :
    ofText ('<' :: t.chars ++ '>' :: rest) = .piece (.start t.tag) rest := by
  obtain ⟨c, cs, hc, hn⟩ := t.name.exists_cons
  have hm : ofMarkup (t.chars ++ '>' :: rest) = ofTag (t.chars ++ '>' :: rest) := by
    rw [TagText.chars, hc]
    exact ofMarkup_tag (Or.inl hn) _
  rw [List.cons_append, ofText_markup, hm, ofTag, tagEnd_of_passes t.passes]
  simp only [Piece.ofTag_start]

theorem Step.ofText_empty (t : TagText) (rest : List Char) :
    ofText ('<' :: t.chars ++ '/' :: '>' :: rest) = .piece (.empty t.tag) rest := by
  obtain ⟨c, cs, hc, hn⟩ := t.name.exists_cons
  have hm : ofMarkup (t.chars ++ '/' :: '>' :: rest) =
      ofTag ((t.chars ++ ['/']) ++ '>' :: rest) := by
    rw [TagText.chars, hc]
    simpa using ofMarkup_tag (Or.inl hn) _
  have hp : Passes (t.chars ++ ['/']) := t.passes.append (passes_char (by decide) (by decide))
  rw [List.cons_append, ofText_markup, hm, ofTag, tagEnd_of_passes hp]
  simp only [Piece.ofTag_empty]

theorem Step.ofText_close (n : Name) (b : Blanks) (rest : List Char) :
    ofText ('<' :: '/' :: n.chars ++ b.chars ++ '>' :: rest) =
      .piece (.close (String.ofList n.chars)) rest := by
  have hp : Passes ('/' :: (n.chars ++ b.chars)) :=
    (passes_char (by decide : isQuote '/' = false) (by decide)).append
      (n.passes.append b.passes)
  have hcs : '/' :: n.chars ++ b.chars ++ '>' :: rest =
      '/' :: (n.chars ++ b.chars) ++ '>' :: rest := by simp
  rw [List.cons_append, List.cons_append, ofText_markup, hcs,
    List.cons_append, ofMarkup_tag (Or.inr rfl), ofTag, ← List.cons_append, tagEnd_of_passes hp]
  simp only [Piece.ofTag, endName_name]

/-- What is written of a tag after its name. -/
def TagText.tail (t : TagText) : List Char :=
  t.attributes.flatMap AttributeText.chars ++ t.trail.chars

theorem TagText.tail_head (t : TagText) : ∀ c, t.tail.head? = some c → isBlank c = true := by
  intro c h
  unfold tail at h
  cases has : t.attributes with
  | nil =>
    rw [has] at h
    exact t.trail.blank c (List.mem_of_head? (by simpa using h))
  | cons a as =>
    obtain ⟨d, ds, hd⟩ := List.exists_cons_of_ne_nil a.apart
    have hcd : d = c := by simpa [has, AttributeText.chars, hd] using h
    exact hcd ▸ a.lead.blank d (by simp [hd])

theorem Tag.ofContent_name (n : Name) (tail : List Char)
    (h : ∀ c, tail.head? = some c → isBlank c = true) :
    Tag.ofContent (n.chars ++ tail) = ⟨String.ofList n.chars, tail⟩ := by
  have hn : ∀ c ∈ n.chars, (!isBlank c) = true := by
    intro c hc
    simp [isBlank_of_isNameChar (n.legal c hc)]
  unfold Tag.ofContent
  rw [List.takeWhile_append_of_pos hn, List.dropWhile_append_of_pos hn]
  cases tail with
  | nil => simp
  | cons c cs => simp [h c rfl]

theorem TagText.tag_eq (t : TagText) : t.tag = ⟨String.ofList t.name.chars, t.tail⟩ := by
  rw [tag, TagText.chars, List.append_assoc]
  exact Tag.ofContent_name t.name t.tail t.tail_head

theorem AttributeStep.ofValue_written (size : Nat) (key : String) (position : Nat)
    (a : AttributeText) (rest : List Char) :
    ofValue size key position (a.after.chars ++ a.quote :: (a.value ++ a.quote :: rest)) =
      .found ⟨key, String.ofList a.value⟩ position rest := by
  have hcut : cut? [a.quote] (a.value ++ a.quote :: rest) = some (a.value, rest) :=
    cut?_written [] a.quote (by simp) a.value rest (fun hi => a.closed (hi.subset (by simp)))
  rw [ofValue, List.dropWhile_append_of_pos a.after.blank,
    List.dropWhile_cons_of_neg (by simp [isBlank_of_isQuote a.quoting])]
  simp only [a.quoting, if_true, hcut]

/-- One written attribute is found, whatever stands behind it, unless its key was seen before. -/
theorem AttributeStep.ofText_written (size : Nat) (seen : List (String × Nat)) (a : AttributeText)
    (rest : List Char) (h : seen.lookup (String.ofList a.key.chars) = none) :
    ∃ position, ofText size seen (a.chars ++ rest) = .found a.attribute position rest := by
  obtain ⟨c, more, hc, hn⟩ := a.key.exists_cons
  have hkey : ∀ d ∈ more, (!(d == '=' || isBlank d)) = true := by
    intro d hd
    have hl := a.key.legal d (by simp [hc, hd])
    have he : ¬ d = '=' := isNameChar_ne hl (by decide)
    simp [he, isBlank_of_isNameChar hl]
  have hstop : ∀ tail : List Char,
      (a.before.chars ++ '=' :: tail).takeWhile (fun d => !(d == '=' || isBlank d)) = [] ∧
      ((a.before.chars ++ '=' :: tail).dropWhile (fun d => !(d == '=' || isBlank d))).dropWhile
        isBlank = '=' :: tail := by
    intro tail
    cases hb : a.before.chars with
    | nil => simp [isBlank]
    | cons d ds =>
      have hall : ∀ e ∈ d :: ds, isBlank e = true :=
        fun e he => a.before.blank e (by simpa [hb] using he)
      have hd := hall d (by simp)
      constructor
      · simp [hd]
      · rw [List.cons_append, List.dropWhile_cons_of_neg (by simp [hd]), ← List.cons_append,
          List.dropWhile_append_of_pos hall]
        simp [isBlank]
  have hcs : a.chars ++ rest = a.lead.chars ++ (c :: (more ++ (a.before.chars ++ '=' ::
      (a.after.chars ++ a.quote :: (a.value ++ a.quote :: rest))))) := by
    simp [AttributeText.chars, hc]
  rw [ofText, hcs, List.dropWhile_append_of_pos a.lead.blank,
    List.dropWhile_cons_of_neg (by simp [isBlank_of_isNameChar hn])]
  simp only [List.takeWhile_append_of_pos hkey, List.dropWhile_append_of_pos hkey, hstop,
    List.append_nil, if_true, ← hc, h, ofValue_written]
  exact ⟨_, rfl⟩

theorem AttributeRun.ofText_found {size : Nat} {seen : List (String × Nat)} {cs rest : List Char}
    {a : Attribute} {position : Nat}
    (h : AttributeStep.ofText size seen cs = .found a position rest) :
    ofText size seen cs =
      ⟨a :: (ofText size ((a.key, position) :: seen) rest).read,
        (ofText size ((a.key, position) :: seen) rest).fault⟩ := by
  rw [ofText]
  split <;> simp_all

theorem AttributeRun.ofText_blanks (size : Nat) (seen : List (String × Nat)) (b : Blanks) :
    ofText size seen b.chars = ⟨[], none⟩ := by
  have hdone : AttributeStep.ofText size seen b.chars = .done := by
    have hb : (b.chars ++ []).dropWhile isBlank = [].dropWhile isBlank :=
      List.dropWhile_append_of_pos b.blank
    have hd : b.chars.dropWhile isBlank = [] := by simpa using hb
    simp [AttributeStep.ofText, hd]
  rw [ofText]
  split <;> simp_all

theorem AttributeRun.ofText_written (size : Nat) (seen : List (String × Nat))
    (as : List AttributeText) (b : Blanks) (hd : (as.map (fun a => a.key.chars)).Nodup)
    (hs : ∀ a ∈ as, seen.lookup (String.ofList a.key.chars) = none) :
    ofText size seen (as.flatMap AttributeText.chars ++ b.chars) =
      ⟨as.map AttributeText.attribute, none⟩ := by
  induction as generalizing seen with
  | nil => simpa using ofText_blanks size seen b
  | cons a as ih =>
    rw [List.map_cons, List.nodup_cons] at hd
    obtain ⟨position, hfound⟩ := AttributeStep.ofText_written size seen a
      (as.flatMap AttributeText.chars ++ b.chars) (hs a (by simp))
    rw [List.flatMap_cons, List.append_assoc, ofText_found hfound, ih _ hd.2]
    · rfl
    · intro d hmem
      have hne : (String.ofList d.key.chars == String.ofList a.key.chars) = false := by
        refine beq_eq_false_iff_ne.mpr fun e => hd.1 (List.mem_map.mpr ⟨d, hmem, ?_⟩)
        simpa using congrArg String.toList e
      simp only [AttributeText.attribute, List.lookup_cons, hne]
      exact hs d (by simp [hmem])

/-- Reading the attributes of a written tag gives them all, without a fault. -/
theorem TagText.attributes_tag (t : TagText) :
    t.tag.attributes = ⟨t.attributes.map AttributeText.attribute, none⟩ := by
  rw [tag_eq, Tag.attributes]
  exact AttributeRun.ofText_written _ [] t.attributes t.trail t.distinct (fun _ _ => rfl)

end YangScript.Xml
