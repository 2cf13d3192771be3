/-!
# White space

Two classes are in use. Markup knows four blanks: space, tab, line feed and carriage return.
Text and the key of a list are trimmed and split at the whole White_Space class of Unicode,
which has twenty-five members.
-/

set_option autoImplicit false

namespace YangScript.Text

/-- The blanks of markup. -/
def isBlank (c : Char) : Bool :=
  c == ' ' || c == '\t' || c == '\n' || c == '\r'

/-- The code points of the White_Space class. -/
def whiteSpaceCodes : List Nat :=
  [0x09, 0x0A, 0x0B, 0x0C, 0x0D, 0x20, 0x85, 0xA0, 0x1680,
   0x2000, 0x2001, 0x2002, 0x2003, 0x2004, 0x2005, 0x2006, 0x2007, 0x2008, 0x2009, 0x200A,
   0x2028, 0x2029, 0x202F, 0x205F, 0x3000]

def isWhiteSpace (c : Char) : Bool :=
  whiteSpaceCodes.contains c.toNat

theorem isWhiteSpace_of_isBlank (c : Char) (h : isBlank c = true) : isWhiteSpace c = true := by
  simp only [isBlank, Bool.or_eq_true, beq_iff_eq] at h
  rcases h with ((rfl | rfl) | rfl) | rfl <;> decide

/-- Drops the characters of a class from the end. -/
def dropEndWhile (p : Char → Bool) (cs : List Char) : List Char :=
  (cs.reverse.dropWhile p).reverse

/-- A text without the white space at its two ends. -/
def trim (s : String) : String :=
  String.ofList (dropEndWhile isWhiteSpace (s.toList.dropWhile isWhiteSpace))

theorem dropEndWhile_append (p : Char → Bool) (cs ds : List Char) (h : ∀ d ∈ ds, p d = true) :
    dropEndWhile p (cs ++ ds) = dropEndWhile p cs := by
  rw [dropEndWhile, List.reverse_append,
    List.dropWhile_append_of_pos (fun d hd => h d (List.mem_reverse.mp hd))]
  rfl

/-- What is dropped from the end is of the class. -/
theorem exists_dropEndWhile (p : Char → Bool) (cs : List Char) :
    ∃ ds, cs = dropEndWhile p cs ++ ds ∧ ∀ d ∈ ds, p d = true := by
  refine ⟨(cs.reverse.takeWhile p).reverse, ?_, ?_⟩
  · rw [dropEndWhile, ← List.reverse_append, List.takeWhile_append_dropWhile, List.reverse_reverse]
  · intro d hd
    exact List.all_eq_true.mp List.all_takeWhile d (List.mem_reverse.mp hd)

theorem dropWhile_dropWhile (p q : Char → Bool) (h : ∀ c, q c = true → p c = true)
    (cs : List Char) : (cs.dropWhile q).dropWhile p = cs.dropWhile p := by
  induction cs with
  | nil => rfl
  | cons c cs ih =>
    by_cases hq : q c = true
    · rw [List.dropWhile_cons_of_pos hq, ih, List.dropWhile_cons_of_pos (h c hq)]
    · rw [List.dropWhile_cons_of_neg hq]

theorem dropWhile_append_class (p : Char → Bool) (cs ds : List Char) (h : ∀ d ∈ ds, p d = true) :
    dropEndWhile p ((cs ++ ds).dropWhile p) = dropEndWhile p (cs.dropWhile p) := by
  rw [List.dropWhile_append]
  split
  · rename_i he
    have hds : ds.dropWhile p = [] := by
      have hall : (ds ++ []).dropWhile p = [].dropWhile p := List.dropWhile_append_of_pos h
      simpa using hall
    rw [hds, List.isEmpty_iff.mp he]
  · exact dropEndWhile_append p _ _ h

/-- Blanks at the ends of a text make no difference to what is left after trimming. -/
theorem trim_dropBlanks (cs : List Char) :
    trim (String.ofList (dropEndWhile isBlank (cs.dropWhile isBlank))) = trim (String.ofList cs) := by
  obtain ⟨ds, hcs, hds⟩ := exists_dropEndWhile isBlank (cs.dropWhile isBlank)
  have hclass : ∀ d ∈ ds, isWhiteSpace d = true := fun d hd => isWhiteSpace_of_isBlank d (hds d hd)
  have hend := dropWhile_append_class isWhiteSpace (dropEndWhile isBlank (cs.dropWhile isBlank)) ds
    hclass
  rw [← hcs, dropWhile_dropWhile isWhiteSpace isBlank isWhiteSpace_of_isBlank] at hend
  rw [trim, trim, String.toList_ofList, String.toList_ofList, hend]

theorem trim_eq_empty_iff (cs : List Char) :
    trim (String.ofList cs) = "" ↔ ∀ c ∈ cs, isWhiteSpace c = true := by
  rw [trim, String.toList_ofList, String.ofList_eq_empty_iff]
  constructor
  · intro h
    obtain ⟨ds, hcs, hds⟩ := exists_dropEndWhile isWhiteSpace (cs.dropWhile isWhiteSpace)
    rw [h, List.nil_append] at hcs
    intro c hc
    rw [← List.takeWhile_append_dropWhile (p := isWhiteSpace) (l := cs), hcs] at hc
    rcases List.mem_append.mp hc with hc | hc
    · exact List.all_eq_true.mp List.all_takeWhile c hc
    · exact hds c hc
  · intro h
    have hnil := dropWhile_append_class isWhiteSpace [] cs h
    simpa [dropEndWhile] using hnil

/-- What is left of a text in white space is left of the text. -/
theorem trim_padded {lead trail : List Char} (hlead : ∀ c ∈ lead, isWhiteSpace c = true)
    (htrail : ∀ c ∈ trail, isWhiteSpace c = true) (v : List Char) :
    trim (String.ofList (lead ++ v ++ trail)) = trim (String.ofList v) := by
  rw [trim, trim, String.toList_ofList, String.toList_ofList,
    dropWhile_append_class isWhiteSpace (lead ++ v) trail htrail,
    List.dropWhile_append_of_pos hlead]

theorem length_trim_le (s : String) : (trim s).length ≤ s.length := by
  obtain ⟨ds, hds, -⟩ := exists_dropEndWhile isWhiteSpace (s.toList.dropWhile isWhiteSpace)
  have hkept := congrArg List.length hds
  have hdropped := (List.dropWhile_sublist isWhiteSpace (l := s.toList)).length_le
  rw [List.length_append] at hkept
  rw [trim, String.length_ofList]
  simp only [String.length_toList] at hdropped
  omega

end YangScript.Text
