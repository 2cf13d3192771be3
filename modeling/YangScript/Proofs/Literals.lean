import Mathlib.Data.Finset.Card
import Mathlib.Data.Set.List
import YangScript.Proofs.Pieces

/-!
# Literals are read back

A reader of single-quoted literals goes through a text from left to right. Behind a backslash it
takes any character as it stands, and a quote without one closes the literal, so that it needs no
more than the text before it to find the end of a value. What it reads of a union of literals are
the values that the union was made of, each once, whatever they hold and end with.
-/

set_option autoImplicit false

namespace YangScript

/-! ## Escaping -/

/-- Every occurrence of the character `c`, replaced by the text `new`. -/
def replaceChar (c : Char) (new cs : List Char) : List Char :=
  cs.flatMap (fun d => if d = c then new else [d])

/-- Backslashes are doubled before quotes get theirs, so that none is doubled that was put in. -/
theorem flatMap_escapeChar_eq (cs : List Char) :
    cs.flatMap escapeChar =
      replaceChar '\x27' ['\x5c', '\x27'] (replaceChar '\x5c' ['\x5c', '\x5c'] cs) := by
  rw [replaceChar, replaceChar, List.flatMap_assoc]
  congr 1
  funext c
  by_cases hback : c = '\x5c'
  · subst hback
    rfl
  · by_cases hquote : c = '\x27'
    · subst hquote
      rfl
    · simp [escapeChar, hback, hquote]

/-! ## The reader -/

/-- The value of a literal that is open, and what stands behind its closing quote. -/
def readValue : List Char → Option (List Char × List Char)
  | [] => none
  | '\x27' :: cs => some ([], cs)
  | '\x5c' :: c :: cs => (readValue cs).map (fun r => (c :: r.1, r.2))
  | c :: cs => (readValue cs).map (fun r => (c :: r.1, r.2))

def readLiteral : List Char → Option (String × List Char)
  | '\x27' :: cs => (readValue cs).map (fun r => (String.ofList r.1, r.2))
  | _ => none

theorem length_readValue {cs : List Char} {r : List Char × List Char} (h : readValue cs = some r) :
    r.2.length < cs.length := by
  induction cs using readValue.induct generalizing r with
  | case1 => exact absurd h (by simp [readValue])
  | case2 cs =>
    rw [readValue, Option.some.injEq] at h
    rw [← h]
    exact Nat.lt_succ_self _
  | case3 c cs ih =>
    rw [readValue] at h
    obtain ⟨r', hr', rfl⟩ := Option.map_eq_some_iff.mp h
    have hlt := ih hr'
    simp only [List.length_cons]
    omega
  | case4 c cs hquote hback ih =>
    rw [readValue] at h
    · obtain ⟨r', hr', rfl⟩ := Option.map_eq_some_iff.mp h
      have hlt := ih hr'
      exact Nat.lt_succ_of_lt hlt
    · exact hquote
    · exact hback

theorem length_readLiteral {cs : List Char} {r : String × List Char}
    (h : readLiteral cs = some r) : r.2.length < cs.length := by
  rw [readLiteral.eq_def] at h
  split at h
  · obtain ⟨r', hr', rfl⟩ := Option.map_eq_some_iff.mp h
    exact Nat.lt_succ_of_lt (length_readValue hr')
  · exact absurd h (by simp)

/-- One literal or more with a bar between any two, up to the end of the text. -/
def readLiterals (cs : List Char) : Option (List String) :=
  match _ : readLiteral cs with
  | none => none
  | some (value, []) => some [value]
  | some (value, ' ' :: '|' :: ' ' :: rest) => (readLiterals rest).map (value :: ·)
  | some _ => none
termination_by cs.length
decreasing_by
  have hlt := length_readLiteral ‹readLiteral cs = _›
  simp only [List.length_cons] at hlt
  omega

/-- The values of a union of literals, none if it is written as the type without values. -/
def readUnion (text : String) : Option (List String) :=
  if text = Primitive.never.keyword then some [] else readLiterals text.toList

/-! ## Reading what is written -/

/-- A value ends at the quote behind it and nowhere before, whatever it holds or ends with. -/
theorem readValue_escaped (value rest : List Char) :
    readValue (value.flatMap escapeChar ++ '\x27' :: rest) = some (value, rest) := by
  induction value with
  | nil => rfl
  | cons c value ih =>
    rw [List.flatMap_cons, List.append_assoc, escapeChar]
    split
    · rw [List.cons_append, List.singleton_append, readValue, ih]
      rfl
    · rename_i h
      rw [Bool.or_eq_true, beq_iff_eq, beq_iff_eq, not_or] at h
      rw [List.singleton_append, readValue, ih]
      · rfl
      · exact h.2
      · intro _ _ hback
        exact absurd hback h.1

theorem readLiteral_literal (value : String) (rest : List Char) :
    readLiteral ((literal value).toList ++ rest) = some (value, rest) := by
  have hopen : (literal value).toList ++ rest =
      '\x27' :: (value.toList.flatMap escapeChar ++ '\x27' :: rest) := by
    simp [literal]
  rw [hopen, readLiteral, readValue_escaped, Option.map_some, String.ofList_toList]

-- The backslash of the value does not take the closing quote for itself.
example : readLiteral ((literal "\x5c").toList ++ " | \x27x\x27".toList) =
    some ("\x5c", " | \x27x\x27".toList) := by
  decide +kernel

theorem escape_injective : Function.Injective (List.flatMap escapeChar) := by
  intro value value' h
  have hread := readValue_escaped value []
  rw [h, readValue_escaped] at hread
  exact (Prod.mk.inj (Option.some.inj hread)).1.symm

theorem literal_injective : Function.Injective literal := by
  intro value value' h
  have hread := readLiteral_literal value []
  rw [h, readLiteral_literal] at hread
  exact (Prod.mk.inj (Option.some.inj hread)).1.symm

theorem readLiterals_join {values : List String} (hne : values ≠ []) :
    readLiterals (Text.join bar (values.map literal)).toList = some values := by
  induction values with
  | nil => exact absurd rfl hne
  | cons value values ih =>
    have hfirst := readLiteral_literal value
    cases values with
    | nil =>
      have hread := hfirst []
      rw [List.append_nil] at hread
      rw [List.map_singleton, Text.join, readLiterals.eq_def, hread]
    | cons next values =>
      have hrest := ih (by simp)
      rw [List.map_cons, List.map_cons, toList_join_bar, readLiterals.eq_def, hfirst]
      show (readLiterals (Text.join bar (literal next :: values.map literal)).toList).map _ = _
      rw [← List.map_cons, hrest]
      rfl

/-! ## What a union of literals holds -/

/-- The list `kept` holds each of the items once, in the order of their first occurrences. -/
structure KeepsFirst {α : Type} [DecidableEq α] (items kept : List α) : Prop where
  mem_iff : ∀ a, a ∈ kept ↔ a ∈ items
  inOrder : kept.Pairwise (fun a b => items.idxOf a < items.idxOf b)

theorem KeepsFirst.length_eq {α : Type} [DecidableEq α] {items kept : List α}
    (h : KeepsFirst items kept) : kept.length = items.toFinset.card := by
  have hnodup : kept.Nodup := by
    apply h.inOrder.imp
    intro a b hlt heq
    rw [heq] at hlt
    exact Nat.lt_irrefl _ hlt
  have hsame : kept.toFinset = items.toFinset := by
    ext a
    rw [List.mem_toFinset, List.mem_toFinset, h.mem_iff]
  rw [← List.toFinset_card_of_nodup hnodup, hsame]

theorem keepsFirst_distinct {α : Type} [DecidableEq α] (items : List α) :
    KeepsFirst items (Text.distinct items) := by
  constructor
  · intro a
    exact Text.mem_distinct a items
  · induction items with
    | nil => exact List.Pairwise.nil
    | cons first items ih =>
      have hbehind : ∀ a, a ≠ first → (first :: items).idxOf a = items.idxOf a + 1 := by
        intro a ha
        exact List.idxOf_cons_ne items ha.symm
      rw [Text.distinct, List.pairwise_cons]
      constructor
      · intro a ha
        have hne : a ≠ first := by simpa using (List.mem_filter.mp ha).2
        rw [List.idxOf_cons_self, hbehind a hne]
        exact Nat.succ_pos _
      · rw [List.pairwise_filter]
        apply ih.imp
        intro a b hlt ha hb
        rw [hbehind a (by simpa using ha), hbehind b (by simpa using hb)]
        exact Nat.succ_lt_succ hlt

theorem ofLiterals_eq (values : List String) :
    ScriptType.ofLiterals values = .union ((Text.distinct values).map literal) := by
  rw [ScriptType.ofLiterals, ScriptType.unionOf, Text.distinct_map literal_injective]

/-- Sorted by their escaped texts, the literals stand in some order of their values. -/
theorem exists_render_ofLiterals {values : List String} (hne : values ≠ []) :
    ∃ read : List String, read ≠ [] ∧ read.Perm (Text.distinct values) ∧
      (ScriptType.ofLiterals values).render = Text.join bar (read.map literal) := by
  have hkept := Text.distinct_ne_nil hne
  have hperm := List.mergeSort_perm ((Text.distinct values).map literal)
    (fun a b => decide (a ≤ b))
  have hsome : ¬ ((Text.distinct values).map literal).isEmpty = true := by simpa using hkept
  rw [ofLiterals_eq, ScriptType.render, renderUnion, if_neg hsome]
  generalize ((Text.distinct values).map literal).mergeSort (fun a b => decide (a ≤ b)) = sorted
    at hperm
  have hrange : sorted ∈ Set.range (List.map literal) := by
    rw [Set.range_list_map]
    intro text htext
    obtain ⟨value, -, hvalue⟩ := List.mem_map.mp (hperm.mem_iff.mp htext)
    exact ⟨value, hvalue⟩
  obtain ⟨read, rfl⟩ := hrange
  rw [List.map_perm_map_iff literal_injective] at hperm
  refine ⟨read, ?_, hperm, rfl⟩
  rintro rfl
  exact hkept (List.nil_perm.mp hperm)

/-- No literal stands in the text of the type without values. -/
theorem join_literals_ne_never {read : List String} (hne : read ≠ []) :
    Text.join bar (read.map literal) ≠ Primitive.never.keyword := by
  intro h
  have hread := readLiterals_join hne
  have hnone : readLiterals Primitive.never.keyword.toList = none := by
    rw [readLiterals.eq_def]
    rfl
  rw [h, hnone] at hread
  exact absurd hread (by simp)

theorem render_ofLiterals_eq_never_iff (values : List String) :
    (ScriptType.ofLiterals values).render = Primitive.never.keyword ↔ values = [] := by
  constructor
  · intro h
    by_contra hne
    obtain ⟨read, hread, -, hrender⟩ := exists_render_ofLiterals hne
    rw [hrender] at h
    exact join_literals_ne_never hread h
  · rintro rfl
    rfl

theorem exists_readUnion (values : List String) :
    ∃ read : List String, read.Perm (Text.distinct values) ∧
      readUnion (ScriptType.ofLiterals values).render = some read := by
  by_cases hne : values = []
  · subst hne
    exact ⟨[], List.Perm.refl [], rfl⟩
  · obtain ⟨read, hread, hperm, hrender⟩ := exists_render_ofLiterals hne
    refine ⟨read, hperm, ?_⟩
    rw [hrender, readUnion, if_neg (join_literals_ne_never hread), readLiterals_join hread]

/-- A union of literals keeps each value once, in the order of their first occurrences, and is
written so that these values are read of it; it is written as the type without values only if
there are none. This rests on the form of one literal, which is closed by no quote but the last,
so that its value is read whatever stands behind it. -/
theorem literals_read_back (values : List String) :
    (∃ kept read : List String, KeepsFirst values kept ∧ kept.length = values.toFinset.card ∧
      ScriptType.ofLiterals values = .union (kept.map literal) ∧
      readUnion (ScriptType.ofLiterals values).render = some read ∧ read.Perm kept) ∧
    ((ScriptType.ofLiterals values).render = Primitive.never.keyword ↔ values = []) ∧
    (∀ value : String, (literal value).toList =
      '\x27' :: replaceChar '\x27' ['\x5c', '\x27']
        (replaceChar '\x5c' ['\x5c', '\x5c'] value.toList) ++ ['\x27']) ∧
    (∀ (value : String) (rest : List Char),
      readLiteral ((literal value).toList ++ rest) = some (value, rest)) ∧
    Function.Injective (List.flatMap escapeChar) := by
  have hkept := keepsFirst_distinct values
  obtain ⟨read, hperm, hread⟩ := exists_readUnion values
  refine ⟨⟨Text.distinct values, read, hkept, hkept.length_eq, ofLiterals_eq values, hread, hperm⟩,
    render_ofLiterals_eq_never_iff values, ?_, readLiteral_literal, escape_injective⟩
  intro value
  rw [literal, String.toList_ofList, flatMap_escapeChar_eq]

end YangScript
