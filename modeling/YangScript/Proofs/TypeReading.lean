import YangScript.Output.Mapping

/-!
# Where a rendered type ends

A reader that counts brackets and skips literals finds the end of a rendered type by its first
mark outside both: a semicolon, a comma, or a bracket that nothing opened. What is shown of a text
is stated for any text behind it, so that the pieces of a type can be put together. Values of an
enumeration may hold any characters at all, and are skipped as a whole.
-/

set_option autoImplicit false

namespace YangScript

/-- Where the reader stands: outside literals, in one, or behind a backslash in one. -/
inductive LiteralState where
  | outside
  | inside
  | escaped

def isOpening (c : Char) : Bool := c == '<' || c == '\x7b'

def isClosing (c : Char) : Bool := c == '>' || c == '\x7d'

def isMark (c : Char) : Bool := c == ',' || c == ';'

/-- What stands before the end of an item, with `depth` brackets open. -/
def leadingItem : LiteralState → Nat → List Char → List Char
  | _, _, [] => []
  | .escaped, depth, c :: cs => c :: leadingItem .inside depth cs
  | .inside, depth, c :: cs =>
    if c = '\x5c' then c :: leadingItem .escaped depth cs
    else if c = '\x27' then c :: leadingItem .outside depth cs
    else c :: leadingItem .inside depth cs
  | .outside, depth, c :: cs =>
    if c = '\x27' then c :: leadingItem .inside depth cs
    else if isOpening c then c :: leadingItem .outside (depth + 1) cs
    else
      match depth with
      | 0 => if isClosing c || isMark c then [] else c :: leadingItem .outside 0 cs
      | d + 1 => c :: leadingItem .outside (if isClosing c then d else d + 1) cs

/-- With `depth` brackets open, no item ends in `cs` and as many are open behind it. -/
def Passes (depth : Nat) (cs : List Char) : Prop :=
  ∀ rest, leadingItem .outside depth (cs ++ rest) = cs ++ leadingItem .outside depth rest

theorem passes_nil (depth : Nat) : Passes depth [] := fun _ => rfl

namespace Passes

variable {depth : Nat} {as bs : List Char}

theorem append (ha : Passes depth as) (hb : Passes depth bs) : Passes depth (as ++ bs) := by
  intro rest
  rw [List.append_assoc, ha, hb, List.append_assoc]

theorem join {separator : String} {texts : List String} (hs : Passes depth separator.toList)
    (ht : ∀ t ∈ texts, Passes depth t.toList) :
    Passes depth (Text.join separator texts).toList := by
  induction texts with
  | nil => exact passes_nil depth
  | cons t rest ih =>
    have hfirst := ht t List.mem_cons_self
    cases rest with
    | nil => exact hfirst
    | cons u rest =>
      have hrest := ih fun v hv => ht v (List.mem_cons_of_mem t hv)
      rw [Text.join, String.toList_append, String.toList_append]
      · exact (hfirst.append hs).append hrest
      · simp

end Passes

/-- A character without a meaning of its own outside literals. -/
def isInert (c : Char) : Bool := !(c == '\x27' || isOpening c || isClosing c || isMark c)

theorem passes_inert {c : Char} (h : isInert c = true) (depth : Nat) : Passes depth [c] := by
  intro rest
  simp only [isInert, Bool.not_eq_true', Bool.or_eq_false_iff, beq_eq_false_iff_ne] at h
  cases depth <;> simp [leadingItem, h]

theorem passes_of_all_inert {cs : List Char} (h : cs.all isInert = true) (depth : Nat) :
    Passes depth cs := by
  induction cs with
  | nil => exact passes_nil depth
  | cons c cs ih =>
    rw [List.all_cons, Bool.and_eq_true] at h
    exact (passes_inert h.1 depth).append (ih h.2)

theorem ne_quote_of_isMark {c : Char} (h : isMark c = true) :
    c ≠ '\x27' ∧ isOpening c = false ∧ isClosing c = false := by
  simp only [isMark, Bool.or_eq_true, beq_iff_eq] at h
  rcases h with rfl | rfl <;> decide

theorem ne_quote_of_isClosing {c : Char} (h : isClosing c = true) :
    c ≠ '\x27' ∧ isOpening c = false := by
  simp only [isClosing, Bool.or_eq_true, beq_iff_eq] at h
  rcases h with rfl | rfl <;> decide

theorem ne_quote_of_isOpening {c : Char} (h : isOpening c = true) : c ≠ '\x27' := by
  rintro rfl
  exact absurd h (by decide)

/-- Inside brackets the marks between items end nothing. -/
theorem passes_mark {c : Char} (h : isMark c = true) (depth : Nat) : Passes (depth + 1) [c] := by
  intro rest
  have hc := ne_quote_of_isMark h
  simp [leadingItem, hc]

theorem passes_bracketed {o c : Char} (ho : isOpening o = true) (hc : isClosing c = true)
    {cs : List Char} {depth : Nat} (h : Passes (depth + 1) cs) :
    Passes depth (o :: (cs ++ [c])) := by
  intro rest
  have hclose : leadingItem .outside (depth + 1) (c :: rest) =
      c :: leadingItem .outside depth rest := by
    simp [leadingItem, hc, ne_quote_of_isClosing hc]
  calc leadingItem .outside depth (o :: (cs ++ [c]) ++ rest)
      = o :: leadingItem .outside (depth + 1) (cs ++ c :: rest) := by
        simp [leadingItem, ho, ne_quote_of_isOpening ho]
    _ = o :: (cs ++ c :: leadingItem .outside depth rest) := by rw [h, hclose]
    _ = o :: (cs ++ [c]) ++ leadingItem .outside depth rest := by simp

theorem leadingItem_escapeChar (c : Char) (depth : Nat) (rest : List Char) :
    leadingItem .inside depth (escapeChar c ++ rest) =
      escapeChar c ++ leadingItem .inside depth rest := by
  rw [escapeChar]
  split
  · simp [leadingItem]
  · rename_i h
    rw [Bool.or_eq_true, beq_iff_eq, beq_iff_eq, not_or] at h
    simp [leadingItem, h]

/-- A literal is left where it was entered, whatever its value holds. -/
theorem passes_literal (value : String) (depth : Nat) : Passes depth (literal value).toList := by
  intro rest
  have hvalue : ∀ cs : List Char,
      leadingItem .inside depth (cs.flatMap escapeChar ++ '\x27' :: rest) =
        cs.flatMap escapeChar ++ '\x27' :: leadingItem .outside depth rest := by
    intro cs
    induction cs with
    | nil => simp [leadingItem]
    | cons c cs ih =>
      rw [List.flatMap_cons, List.append_assoc, leadingItem_escapeChar, ih, List.append_assoc]
  simp [literal, leadingItem, hvalue]

/-- All brackets and literals of the text are closed in it, and no item ends in it. -/
def Balanced (cs : List Char) : Prop := ∀ depth, Passes depth cs

/-- What ends an item where no bracket is open. -/
theorem leadingItem_of_balanced {cs : List Char} (h : Balanced cs) {c : Char}
    (hc : isMark c = true) (rest : List Char) : leadingItem .outside 0 (cs ++ c :: rest) = cs := by
  have hstop : leadingItem .outside 0 (c :: rest) = [] := by
    simp [leadingItem, hc, ne_quote_of_isMark hc]
  rw [h 0, hstop, List.append_nil]

/-- A balanced text before a mark can be told from what follows. -/
theorem Balanced.eq_of_append {as bs : List Char} (ha : Balanced as) (hb : Balanced bs)
    {c : Char} (hc : isMark c = true) {rest rest' : List Char}
    (h : as ++ c :: rest = bs ++ c :: rest') : as = bs ∧ rest = rest' := by
  have heq : as = bs := by
    rw [← leadingItem_of_balanced ha hc rest, h, leadingItem_of_balanced hb hc rest']
  rw [heq, List.append_cancel_left_eq] at h
  exact ⟨heq, (List.cons.inj h).2⟩

/-- The two characters that a rendered record may start with. -/
def isRecordStart (c : Char) : Bool := c == 'R' || c == '\x7b'

/-- A balanced text that no record starts with. -/
structure IsScalarText (text : String) : Prop where
  balanced : Balanced text.toList
  start : ∃ c, text.toList.head? = some c ∧ isRecordStart c = false

theorem isScalarText_keyword (p : Primitive) : IsScalarText p.keyword := by
  have hinert : p.keyword.toList.all isInert = true := by cases p <;> decide
  refine ⟨passes_of_all_inert hinert, ?_⟩
  cases p <;> exact ⟨_, rfl, by decide⟩

theorem isScalarText_literal (value : String) : IsScalarText (literal value) :=
  ⟨passes_literal value, '\x27', by simp [literal], by decide⟩

theorem isScalarText_array {element : String} (h : Balanced element.toList) :
    IsScalarText ("Array<" ++ element ++ ">") := by
  refine ⟨fun depth => ?_, 'A', by simp, by decide⟩
  have hword : Passes depth "Array".toList := passes_of_all_inert (by decide) depth
  have hitem : Passes depth ('<' :: (element.toList ++ ['>'])) :=
    passes_bracketed (by decide) (by decide) (h (depth + 1))
  simpa using hword.append hitem

theorem isScalarText_join {texts : List String} (hne : texts ≠ [])
    (h : ∀ t ∈ texts, IsScalarText t) : IsScalarText (Text.join " | " texts) := by
  refine ⟨fun depth => ?_, ?_⟩
  · have hbar : Passes depth " | ".toList := passes_of_all_inert (by decide) depth
    exact hbar.join fun t ht => (h t ht).balanced depth
  · obtain ⟨first, rest, rfl⟩ := List.exists_cons_of_ne_nil hne
    obtain ⟨c, hhead, hstart⟩ := (h first List.mem_cons_self).start
    refine ⟨c, ?_, hstart⟩
    cases rest <;> simp [Text.join, hhead]

theorem isScalarText_renderUnion {members : List String} (h : ∀ m ∈ members, IsScalarText m) :
    IsScalarText (renderUnion members) := by
  rw [renderUnion]
  split
  · exact isScalarText_keyword .never
  · rename_i hsome
    have hperm := List.mergeSort_perm members (fun a b => decide (a ≤ b))
    apply isScalarText_join
    · intro hnil
      rw [hnil, List.nil_perm] at hperm
      exact hsome (List.isEmpty_iff.mpr hperm)
    · intro m hm
      exact h m (hperm.mem_iff.mp hm)

end YangScript
