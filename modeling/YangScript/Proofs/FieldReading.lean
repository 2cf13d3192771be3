import YangScript.Proofs.TypeReading

/-!
# Where a field and a record end

A field is its key, a mark that tells whether it may be absent, its type, and a semicolon. The key
ends where no character of a name can stand, and the type where an item ends, so that a field can
be told from whatever follows it. A record written with its key is cut in two by a comma.
-/

set_option autoImplicit false

namespace YangScript

/-- Letters, digits and the three marks that names are made of. -/
def isFieldChar (c : Char) : Bool := c.isAlphanum || c == '_' || c == '-' || c == '.'

def isPlainName (name : String) : Bool := !name.isEmpty && name.toList.all isFieldChar

theorem isInert_of_isFieldChar {c : Char} (h : isFieldChar c = true) : isInert c = true := by
  rw [isInert, Bool.not_eq_true']
  refine Bool.eq_false_iff.mpr fun hc => ?_
  simp only [isOpening, isClosing, isMark, Bool.or_eq_true, beq_iff_eq] at hc
  rcases hc with ((rfl | rfl | rfl) | rfl | rfl) | rfl | rfl <;> exact absurd h (by decide)

theorem passes_propertyKey {name : String} (h : isPlainName name = true) (depth : Nat) :
    Passes depth (propertyKey name).toList := by
  rw [isPlainName, Bool.and_eq_true, List.all_eq_true] at h
  have hname : Passes depth name.toList := by
    refine passes_of_all_inert (List.all_eq_true.mpr fun c hc => ?_) depth
    exact isInert_of_isFieldChar (h.2 c hc)
  rw [propertyKey]
  split
  · have hquote : Passes depth ['\x22'] := passes_inert (by decide) depth
    simpa using (hquote.append hname).append hquote
  · exact hname

theorem passes_renderField {name value : String} (hn : isPlainName name = true)
    (hv : Balanced value.toList) (optional : Bool) (depth : Nat) :
    Passes (depth + 1) (renderField name optional value).toList := by
  have hmark : Passes (depth + 1) (if optional then "?: " else ": ").toList := by
    cases optional <;> exact passes_of_all_inert (by decide) _
  have hend : Passes (depth + 1) ";".toList := passes_mark (by decide) depth
  have hall := (((passes_propertyKey hn _).append hmark).append (hv _)).append hend
  simpa only [renderField, String.toList_append] using hall

/-- Some characters of a class are told apart from what does not start with one. -/
theorem eq_of_append_outside {p : Char → Bool} {as bs rest rest' : List Char} {c c' : Char}
    (ha : ∀ a ∈ as, p a = true) (hb : ∀ b ∈ bs, p b = true) (hc : p c = false) (hc' : p c' = false)
    (h : as ++ c :: rest = bs ++ c' :: rest') : as = bs ∧ c :: rest = c' :: rest' := by
  have htake := congrArg (List.takeWhile p) h
  rw [List.takeWhile_append_of_pos ha, List.takeWhile_append_of_pos hb] at htake
  have heq : as = bs := by simpa [hc, hc'] using htake
  rw [heq, List.append_cancel_left_eq] at h
  exact ⟨heq, h⟩

theorem propertyKey_start {name : String} (h : isPlainName name = true) :
    ∃ c cs, (propertyKey name).toList = c :: cs ∧ (c = '\x22' ↔ isHyphenated name = true) := by
  rw [isPlainName, Bool.and_eq_true, List.all_eq_true, Bool.not_eq_true',
    ← Bool.not_eq_true, String.isEmpty_iff] at h
  by_cases hy : isHyphenated name = true
  · exact ⟨'\x22', name.toList ++ ['\x22'], by simp [propertyKey, hy], by simp [hy]⟩
  · have hne : name.toList ≠ [] := by simpa using h.1
    obtain ⟨c, cs, hcs⟩ := List.exists_cons_of_ne_nil hne
    have hc : c ≠ '\x22' := by
      rintro rfl
      exact absurd (h.2 '\x22' (by simp [hcs])) (by decide)
    exact ⟨c, cs, by simp [propertyKey, hy, hcs], by simp [hc, hy]⟩

/-- The key of a field ends where no character of a name can stand. -/
theorem propertyKey_eq_of_append {name name' : String} (h : isPlainName name = true)
    (h' : isPlainName name' = true) {c c' : Char} {rest rest' : List Char}
    (hc : isFieldChar c = false) (hc' : isFieldChar c' = false)
    (heq : (propertyKey name).toList ++ c :: rest = (propertyKey name').toList ++ c' :: rest') :
    name = name' ∧ c :: rest = c' :: rest' := by
  obtain ⟨d, ds, hd, hquote⟩ := propertyKey_start h
  obtain ⟨d', ds', hd', hquote'⟩ := propertyKey_start h'
  have hsame : isHyphenated name = isHyphenated name' := by
    rw [hd, hd'] at heq
    rw [Bool.eq_iff_iff, ← hquote, ← hquote', (List.cons.inj heq).1]
  rw [isPlainName, Bool.and_eq_true, List.all_eq_true] at h h'
  rw [propertyKey, propertyKey, ← hsame] at heq
  by_cases hy : isHyphenated name = true
  · simp only [hy, if_true, String.toList_append, List.append_assoc] at heq
    have hinner := List.append_cancel_left heq
    have hends := eq_of_append_outside h.2 h'.2 (by decide) (by decide) hinner
    exact ⟨String.toList_inj.mp hends.1, (List.cons.inj hends.2).2⟩
  · simp only [hy] at heq
    have hends := eq_of_append_outside h.2 h'.2 hc hc' heq
    exact ⟨String.toList_inj.mp hends.1, hends.2⟩

/-- A field is told apart from whatever follows it. -/
theorem renderField_eq_of_append {name name' value value' : String} {optional optional' : Bool}
    {rest rest' : List Char} (hn : isPlainName name = true) (hn' : isPlainName name' = true)
    (hv : Balanced value.toList) (hv' : Balanced value'.toList)
    (heq : (renderField name optional value).toList ++ rest =
      (renderField name' optional' value').toList ++ rest') :
    name = name' ∧ optional = optional' ∧ value = value' ∧ rest = rest' := by
  have hparts : ∀ (n v : String) (o : Bool) (tail : List Char), ∃ c cs, isFieldChar c = false ∧
      (renderField n o v).toList ++ tail = (propertyKey n).toList ++ c :: cs ∧
      c :: cs = (if o then "?: " else ": ").toList ++ (v.toList ++ ';' :: tail) := by
    intro n v o tail
    cases o
    · exact ⟨':', ' ' :: (v.toList ++ ';' :: tail), by decide, by simp [renderField], by simp⟩
    · exact ⟨'?', ':' :: ' ' :: (v.toList ++ ';' :: tail), by decide, by simp [renderField],
        by simp⟩
  obtain ⟨c, cs, hc, hleft, hmark⟩ := hparts name value optional rest
  obtain ⟨c', cs', hc', hright, hmark'⟩ := hparts name' value' optional' rest'
  rw [hleft, hright] at heq
  obtain ⟨hname, htail⟩ := propertyKey_eq_of_append hn hn' hc hc' heq
  rw [hmark, hmark'] at htail
  have hoptional : optional = optional' := by
    cases optional <;> cases optional' <;> simp at htail ⊢
  subst hoptional
  have hvalue := hv.eq_of_append hv' (by decide) (List.append_cancel_left htail)
  exact ⟨hname, rfl, String.toList_inj.mp hvalue.1, hvalue.2⟩

theorem balanced_block {lines : List String}
    (h : ∀ l ∈ lines, ∀ depth, Passes (depth + 1) l.toList) : Balanced (block lines).toList := by
  intro depth
  have hbreak : Passes (depth + 1) "\n".toList := passes_of_all_inert (by decide) _
  have hlines : Passes (depth + 1) (Text.join "\n" lines).toList :=
    Passes.join hbreak fun l hl => h l hl depth
  have hall := passes_bracketed (by decide : isOpening '\x7b' = true)
    (by decide : isClosing '\x7d' = true) ((hbreak.append hlines).append hbreak)
  simpa [block] using hall

theorem block_inj {lines lines' : List String} (h : block lines = block lines') :
    Text.join "\n" lines = Text.join "\n" lines' := by
  rwa [block, block, String.append_left_inj, String.append_right_inj] at h

/-- What a record maps its keys to, when it is written with its key. -/
def rangeText (lines : List String) : String :=
  if lines.isEmpty then Primitive.any.keyword else block lines

theorem renderRecord_eq (key : String) (lines : List String) :
    renderRecord key lines =
      if lines.isEmpty = false ∧ key = Primitive.string.keyword then block lines
      else "Record<" ++ key ++ ", " ++ rangeText lines ++ ">" := by
  rw [renderRecord, rangeText]
  cases lines.isEmpty <;> simp

theorem rangeText_inj {lines lines' : List String} (h : rangeText lines = rangeText lines') :
    Text.join "\n" lines = Text.join "\n" lines' := by
  have hstart : ∀ ls, Primitive.any.keyword ≠ block ls := by
    intro ls heq
    have hhead := congrArg (fun s => s.toList.head?) heq
    simp [block, Primitive.keyword] at hhead
  cases lines with
  | nil =>
    cases lines' with
    | nil => rfl
    | cons l' ls' => exact absurd h (hstart _)
  | cons l ls =>
    cases lines' with
    | nil => exact absurd h.symm (hstart _)
    | cons l' ls' => exact block_inj h

theorem balanced_rangeText {lines : List String}
    (h : ∀ l ∈ lines, ∀ depth, Passes (depth + 1) l.toList) :
    Balanced (rangeText lines).toList := by
  rw [rangeText]
  split
  · exact (isScalarText_keyword .any).balanced
  · exact balanced_block h

theorem balanced_renderRecord {key : String} {lines : List String} (hk : Balanced key.toList)
    (hl : ∀ l ∈ lines, ∀ depth, Passes (depth + 1) l.toList) :
    Balanced (renderRecord key lines).toList := by
  rw [renderRecord_eq]
  split
  · exact balanced_block hl
  · intro depth
    have hword : Passes depth "Record".toList := passes_of_all_inert (by decide) depth
    have hcomma : Passes (depth + 1) ", ".toList :=
      (passes_mark (by decide : isMark ',' = true) depth).append
        (passes_inert (by decide : isInert ' ' = true) _)
    have hinner := ((hk (depth + 1)).append hcomma).append (balanced_rangeText hl (depth + 1))
    have hall := hword.append (passes_bracketed (by decide : isOpening '<' = true)
      (by decide : isClosing '>' = true) hinner)
    simpa using hall

theorem renderRecord_start (key : String) (lines : List String) :
    ∃ c, (renderRecord key lines).toList.head? = some c ∧ isRecordStart c = true := by
  rw [renderRecord_eq]
  split
  · exact ⟨'\x7b', by simp [block], by decide⟩
  · exact ⟨'R', by simp, by decide⟩

/-- A record is cut at the comma behind its key, which may be a record itself. -/
theorem renderRecord_inj {key key' : String} {lines lines' : List String}
    (hk : Balanced key.toList) (hk' : Balanced key'.toList)
    (h : renderRecord key lines = renderRecord key' lines') :
    key = key' ∧ Text.join "\n" lines = Text.join "\n" lines' := by
  have hstart : ∀ ls k v, block ls ≠ "Record<" ++ k ++ ", " ++ v ++ ">" := by
    intro ls k v heq
    have hhead := congrArg (fun s => s.toList.head?) heq
    simp [block] at hhead
  rw [renderRecord_eq, renderRecord_eq] at h
  split at h
  · rename_i hplain
    split at h
    · rename_i hplain'
      exact ⟨hplain.2.trans hplain'.2.symm, block_inj h⟩
    · exact absurd h (hstart _ _ _)
  · split at h
    · exact absurd h.symm (hstart _ _ _)
    · have hchars : key.toList ++ ',' :: (' ' :: ((rangeText lines).toList ++ ['>'])) =
          key'.toList ++ ',' :: (' ' :: ((rangeText lines').toList ++ ['>'])) := by
        simpa using congrArg String.toList h
      obtain ⟨hkeys, hrest⟩ := hk.eq_of_append hk' (by decide) hchars
      have hranges := List.append_cancel_right (List.cons.inj hrest).2
      exact ⟨String.toList_inj.mp hkeys, rangeText_inj (String.toList_inj.mp hranges)⟩

end YangScript
