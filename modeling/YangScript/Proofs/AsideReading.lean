import YangScript.Proofs.TagReading

/-!
# Asides are passed over as a whole

Each written aside is one piece for the reader, and the reading goes on behind it. Document types
take the most steps: their internal subset holds declarations that may hide brackets in quotes,
comments and instructions.
-/

set_option autoImplicit false

namespace YangScript.Xml

open YangScript.Text

theorem cut?_comment (body rest : List Char) (h : ¬ commentMark <:+: body) :
    cut? commentMark (body ++ (commentMark ++ rest)) = some (body, rest) :=
  cut?_written ['-', '-'] '>' (by decide) body rest h

theorem cut?_instruction (body rest : List Char) (h : ¬ instructionMark <:+: body) :
    cut? instructionMark (body ++ (instructionMark ++ rest)) = some (body, rest) :=
  cut?_written ['?'] '>' (by decide) body rest h

theorem cut?_cdata (body rest : List Char) (h : ¬ cdataMark <:+: body) :
    cut? cdataMark (body ++ (cdataMark ++ rest)) = some (body, rest) :=
  cut?_written [']', ']'] '>' (by decide) body rest h

theorem Step.ofText_comment (body rest : List Char) (h : ¬ commentMark <:+: body) :
    ofText ('<' :: '!' :: '-' :: '-' :: body ++ commentMark ++ rest) = .piece .aside rest := by
  have hcut := cut?_comment body rest h
  simp only [List.cons_append, List.append_assoc, ofText_markup]
  simp only [ofMarkup, ofComment, asideTo, hcut]

theorem Step.ofText_cdata (body rest : List Char) (h : ¬ cdataMark <:+: body) :
    ofText ('<' :: '!' :: '[' :: cdataWord ++ body ++ cdataMark ++ rest) = .piece .aside rest := by
  have hcut := cut?_cdata body rest h
  simp only [cdataWord, List.cons_append, List.nil_append, List.append_assoc, ofText_markup]
  simp [ofMarkup, ofCData, asideTo, hcut, List.isPrefixOf]

theorem Step.ofText_instruction (body rest : List Char) (h : ¬ instructionMark <:+: body)
    (hb : body.head? ≠ some '>') :
    ofText ('<' :: '?' :: body ++ instructionMark ++ rest) = .piece .aside rest := by
  have hcut := cut?_instruction body rest h
  simp only [List.cons_append, List.append_assoc, ofText_markup]
  change ofInstruction (body ++ (instructionMark ++ rest)) = _
  unfold ofInstruction
  split
  · rename_i cs heq
    cases body with
    | nil => exact absurd (List.cons.inj heq).1 (by decide)
    | cons c body => exact absurd (congrArg some (List.cons.inj heq).1) hb
  · simp only [asideTo, hcut]

theorem Step.ofText_reference (name rest : List Char)
    (h : ∀ c ∈ name, c ≠ ';' ∧ c ≠ '&' ∧ c ≠ '<') :
    ofText ('&' :: name ++ [';'] ++ rest) = .piece .aside rest := by
  have hd : (name ++ ';' :: rest).dropWhile (fun c => !(c == ';' || c == '&' || c == '<')) =
      ';' :: rest := by
    rw [List.dropWhile_append_of_pos (fun c hc => by simp [h c hc])]
    simp
  have hr : ofReference (name ++ ';' :: rest) = .piece .aside rest := by
    simp only [ofReference, hd]
  simpa [ofText, isBlank] using hr

theorem afterDoctype?_quoted (quote : Char) (body rest : List Char) (h : quote ∉ body) :
    afterDoctype? (some quote) (body ++ quote :: rest) = afterDoctype? none rest := by
  induction body with
  | nil => simp [afterDoctype?]
  | cons c body ih =>
    have hc : ¬ c = quote := fun e => h (by simp [e])
    rw [List.cons_append, afterDoctype?]
    simp only [hc, if_false]
    exact ih (fun hm => h (by simp [hm]))

theorem afterDoctype?_part (p : QuotedPart) (rest : List Char) :
    afterDoctype? none (p.chars ++ rest) = afterDoctype? none rest := by
  cases p with
  | plain c bare => simp [QuotedPart.chars, afterDoctype?, bare]
  | quoted quote quoting body closed =>
    have hc : ¬ quote = '>' := by
      rintro rfl
      exact absurd quoting (by decide)
    have hs : ¬ quote = '[' := by
      rintro rfl
      exact absurd quoting (by decide)
    rw [QuotedPart.chars, List.cons_append, List.cons_append, List.append_assoc, afterDoctype?]
    simp only [hc, hs, quoting, if_false, if_true, List.singleton_append]
    exact afterDoctype?_quoted quote body rest closed

theorem afterDoctype?_parts (ps : List QuotedPart) (rest : List Char) :
    afterDoctype? none (ps.flatMap QuotedPart.chars ++ rest) = afterDoctype? none rest := by
  induction ps with
  | nil => rfl
  | cons p ps ih => rw [List.flatMap_cons, List.append_assoc, afterDoctype?_part, ih]

theorem QuotedPart.passes (p : QuotedPart) : Passes p.chars := by
  cases p with
  | plain c bare => exact passes_char bare.1 bare.2.1
  | quoted quote quoting body closed => exact passes_quoted quoting closed

theorem not_mem_of_mem_quotingWords {word : List Char} (h : word ∈ quotingWords) :
    ∀ c ∈ word, isQuote c = false ∧ c ≠ '>' := by
  simp only [quotingWords, List.mem_cons, List.not_mem_nil, or_false] at h
  rcases h with rfl | rfl | rfl <;> simp [isQuote]

theorem afterDeclaration?_quoting (word : List Char) (h : word ∈ quotingWords)
    (parts : List QuotedPart) (rest : List Char) :
    afterDeclaration? (word ++ parts.flatMap QuotedPart.chars ++ '>' :: rest) = some rest := by
  have hp : Passes (word ++ parts.flatMap QuotedPart.chars) :=
    (passes_bare word (not_mem_of_mem_quotingWords h)).append
      (passes_flatMap QuotedPart.chars parts (fun p _ => p.passes))
  have hend := tagEnd_of_passes hp rest
  rw [List.append_assoc] at hend ⊢
  simp only [quotingWords, List.mem_cons, List.not_mem_nil, or_false] at h
  rcases h with rfl | rfl | rfl <;>
    simp_all [afterDeclaration?, List.isPrefixOf]

theorem not_prefix_close {word body : List Char} (hw : '>' ∉ word) (hb : ¬ word <+: body)
    (rest : List Char) : ¬ word <+: body ++ '>' :: rest := by
  intro hp
  rcases List.prefix_or_prefix_of_prefix hp (List.prefix_append _ _) with hin | ⟨tail, hend⟩
  · exact hb hin
  · rw [← hend, List.prefix_append_right_inj] at hp
    cases tail with
    | nil => exact hb ⟨[], by simpa using hend.symm⟩
    | cons c tail =>
      have hc : c = '>' := (List.cons_prefix_cons.mp hp).1
      exact hw (by simp [← hend, hc])

theorem afterDeclaration?_bare (d : BareDeclaration) (rest : List Char) :
    afterDeclaration? (d.body ++ '>' :: rest) = some rest := by
  have hcut : cut? ['>'] (d.body ++ '>' :: rest) = some (d.body, rest) :=
    cut?_written [] '>' (by simp) d.body rest (fun hi => d.closed (hi.subset (by simp)))
  have hinstruction := not_prefix_close (by decide) d.noInstruction rest
  have hcomment := not_prefix_close (by decide) d.noComment rest
  have hquoting :
      quotingWords.any (fun word => word.isPrefixOf (d.body ++ '>' :: rest)) = false := by
    rw [List.any_eq_false]
    intro word hw hp
    have hfree : '>' ∉ word := fun hm => (not_mem_of_mem_quotingWords hw '>' hm).2 rfl
    exact not_prefix_close hfree (d.noQuoting word hw) rest (List.isPrefixOf_iff_prefix.mp hp)
  unfold afterDeclaration?
  dsimp only
  split
  · rename_i inner heq
    exact absurd ⟨inner, heq.symm⟩ hinstruction
  · rename_i inner heq
    exact absurd ⟨inner, heq.symm⟩ hcomment
  · rw [quotingWords] at hquoting
    rw [hquoting, if_neg (by decide), hcut]
    rfl

theorem afterSubset?_declaration {cs rest : List Char} (h : afterDeclaration? cs = some rest) :
    afterSubset? ('<' :: cs) = afterSubset? rest := by
  rw [afterSubset?]
  split
  · rename_i hnone
    rw [h] at hnone
    exact absurd hnone (by simp)
  · rename_i after hsome
    rw [h] at hsome
    rw [Option.some.inj hsome]

theorem afterSubset?_plain {c : Char} (hclose : c ≠ ']') (hopen : c ≠ '<') (cs : List Char) :
    afterSubset? (c :: cs) = afterSubset? cs := by
  rw [afterSubset?.eq_def]
  split <;> simp_all

theorem afterSubset?_part (p : SubsetPart) (rest : List Char) :
    afterSubset? (p.chars ++ rest) = afterSubset? rest := by
  cases p with
  | plain c bare => exact afterSubset?_plain bare.1 bare.2 rest
  | comment body closed =>
    have hcut := cut?_comment body rest closed
    simp only [SubsetPart.chars, List.cons_append, List.append_assoc]
    exact afterSubset?_declaration (by simp [afterDeclaration?, hcut])
  | instruction body closed =>
    have hcut := cut?_instruction body rest closed
    simp only [SubsetPart.chars, List.cons_append, List.append_assoc]
    exact afterSubset?_declaration (by simp [afterDeclaration?, hcut])
  | quoting word known parts =>
    simp only [SubsetPart.chars, List.cons_append, List.append_assoc, List.nil_append]
    refine afterSubset?_declaration ?_
    simpa using afterDeclaration?_quoting word known parts rest
  | bare d =>
    simp only [SubsetPart.chars, List.cons_append, List.append_assoc, List.nil_append]
    exact afterSubset?_declaration (afterDeclaration?_bare d rest)

theorem afterSubset?_parts (ps : List SubsetPart) (rest : List Char) :
    afterSubset? (ps.flatMap SubsetPart.chars ++ rest) = afterSubset? rest := by
  induction ps with
  | nil => rfl
  | cons p ps ih => rw [List.flatMap_cons, List.append_assoc, afterSubset?_part, ih]

theorem afterSubset?_close (b : Blanks) (rest : List Char) :
    afterSubset? (']' :: b.chars ++ '>' :: rest) = some rest := by
  have hcut : cut? ['>'] (b.chars ++ '>' :: rest) = some (b.chars, rest) := by
    refine cut?_written [] '>' (by simp) b.chars rest (fun hi => ?_)
    exact absurd (b.blank '>' (hi.subset (by simp))) (by decide)
  rw [List.cons_append, afterSubset?, hcut]
  rfl

theorem afterDoctype?_body (d : Doctype) (rest : List Char) :
    afterDoctype? none (d.body ++ rest) = some rest := by
  rw [Doctype.body, List.append_assoc, List.append_assoc, afterDoctype?_parts]
  cases d.subset with
  | none => simp [afterDoctype?]
  | some s =>
    have hsub := afterSubset?_parts s.parts (']' :: s.trail.chars ++ '>' :: rest)
    rw [afterSubset?_close] at hsub
    simpa [Subset.chars, afterDoctype?] using hsub

/-- A document type has a name, so its first character that is no blank does not end it. -/
theorem Doctype.dropWhile_body (d : Doctype) (rest : List Char) :
    ∀ tail, (d.body ++ rest).dropWhile isBlank ≠ '>' :: tail := by
  have hparts : ∀ ps : List QuotedPart, (∃ c ∈ ps.flatMap QuotedPart.chars, isBlank c = false) →
      ∀ more tail, (ps.flatMap QuotedPart.chars ++ more).dropWhile isBlank ≠ '>' :: tail := by
    intro ps h more tail
    induction ps with
    | nil => simp at h
    | cons p ps ih =>
      rw [List.flatMap_cons, List.append_assoc]
      cases p with
      | plain c bare =>
        by_cases hc : isBlank c = true
        · have hps : ∃ c ∈ ps.flatMap QuotedPart.chars, isBlank c = false := by
            obtain ⟨e, he, hb⟩ := h
            rw [List.flatMap_cons, QuotedPart.chars] at he
            rcases List.mem_append.mp he with he | he
            · rw [List.mem_singleton.mp he, hc] at hb
              exact absurd hb (by decide)
            · exact ⟨e, he, hb⟩
          rw [QuotedPart.chars, List.singleton_append, List.dropWhile_cons_of_pos hc]
          exact ih hps
        · rw [QuotedPart.chars, List.singleton_append, List.dropWhile_cons_of_neg hc]
          exact fun e => bare.2.1 (List.cons.inj e).1
      | quoted quote quoting body closed =>
        have hc : quote ≠ '>' := by
          rintro rfl
          exact absurd quoting (by decide)
        rw [QuotedPart.chars, List.cons_append, List.cons_append,
          List.dropWhile_cons_of_neg (by simp [isBlank_of_isQuote quoting])]
        exact fun e => hc (List.cons.inj e).1
  intro tail
  rw [Doctype.body, List.append_assoc, List.append_assoc]
  exact hparts d.head d.named _ tail

theorem Step.ofText_doctype (d : Doctype) (rest : List Char) :
    ofText ('<' :: '!' :: doctypeWord ++ d.body ++ rest) = .piece .aside rest := by
  have hname := d.dropWhile_body rest
  have hafter := afterDoctype?_body d rest
  simp only [doctypeWord, List.cons_append, List.nil_append, ofText_markup]
  change ofDoctype ('D' :: 'O' :: 'C' :: 'T' :: 'Y' :: 'P' :: 'E' :: (d.body ++ rest)) = _
  unfold ofDoctype
  dsimp only [List.length_cons, List.length_nil]
  rw [if_pos (by simp)]
  -- `hname` rules out the case of a document type without a name
  simp only [List.drop_succ_cons, List.drop_zero, hafter]

/-- Every written aside is one piece. -/
theorem Step.ofText_aside (a : Aside) (rest : List Char) :
    ofText (a.chars ++ rest) = .piece .aside rest := by
  cases a with
  | comment body closed => exact ofText_comment body rest closed
  | cdata body closed => exact ofText_cdata body rest closed
  | instruction body closed begun => exact ofText_instruction body rest closed begun
  | reference name closed => exact ofText_reference name rest closed
  | doctype d => exact ofText_doctype d rest

end YangScript.Xml
