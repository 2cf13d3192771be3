import YangScript.Proofs.TypeReading

/-!
# A rendered text cut at its bars

A reader that skips literals cuts a text at every bar that stands outside them. Inside a literal a
backslash takes its meaning from the character behind it, so values may hold quotes and bars. The
pieces with bars between them are the text again. A union is cut into the pieces of its members, as
no member ends inside a literal.
-/

set_option autoImplicit false

namespace YangScript

/-- Where the reader stands behind one more character. -/
def LiteralState.after (c : Char) : LiteralState → LiteralState
  | .outside => if c = '\x27' then .inside else .outside
  | .inside => if c = '\x5c' then .escaped else if c = '\x27' then .outside else .inside
  | .escaped => .inside

/-- What stands between the members of a union. -/
def bar : String := " | "

/-- The texts between the bars outside literals. There is always at least one. -/
def cutAtBars : LiteralState → List Char → List (List Char)
  | _, [] => [[]]
  | .outside, ' ' :: '|' :: ' ' :: cs => [] :: cutAtBars .outside cs
  | state, c :: cs => (cutAtBars (state.after c) cs).modifyHead (fun piece => c :: piece)

def pieces (text : String) : List String := (cutAtBars .outside text.toList).map String.ofList

theorem cutAtBars_bar (cs : List Char) :
    cutAtBars .outside (bar.toList ++ cs) = [] :: cutAtBars .outside cs := rfl

/-- No bar begins at a character that is not a space, and none inside a literal. -/
theorem cutAtBars_cons {state : LiteralState} {c : Char} (h : state = .outside → c ≠ ' ')
    (cs : List Char) :
    cutAtBars state (c :: cs) =
      (cutAtBars (state.after c) cs).modifyHead (fun piece => c :: piece) := by
  rw [cutAtBars]
  intro _ hstate hc
  exact absurd hc (h hstate)

theorem cutAtBars_ne_nil (state : LiteralState) (cs : List Char) : cutAtBars state cs ≠ [] := by
  fun_induction cutAtBars state cs with
  | case1 => simp
  | case2 => simp
  | case3 state c cs _ ih => simpa [List.modifyHead_eq_nil_iff] using ih

/-- A character in front of the first of some texts is in front of the joined text. -/
theorem join_modifyHead (separator : String) (c : Char) {parts : List (List Char)}
    (h : parts ≠ []) :
    Text.join separator ((parts.modifyHead (fun part => c :: part)).map String.ofList) =
      String.ofList [c] ++ Text.join separator (parts.map String.ofList) := by
  obtain ⟨part, rest, rfl⟩ := List.exists_cons_of_ne_nil h
  have hpart : String.ofList (c :: part) = String.ofList [c] ++ String.ofList part := by
    rw [← String.ofList_append]
    rfl
  rw [List.modifyHead_cons, List.map_cons, List.map_cons, Text.join_cons, Text.join_cons, hpart,
    String.append_assoc]

/-- Nothing of a text is lost where it is cut. -/
theorem join_pieces (text : String) : Text.join bar (pieces text) = text := by
  have hcut : ∀ state cs, Text.join bar ((cutAtBars state cs).map String.ofList) =
      String.ofList cs := by
    intro state cs
    fun_induction cutAtBars state cs with
    | case1 => rfl
    | case2 cs ih =>
      have hsome : ((cutAtBars .outside cs).map String.ofList).isEmpty = false := by
        simpa using cutAtBars_ne_nil .outside cs
      have hbar : bar = String.ofList [' ', '|', ' '] := rfl
      rw [List.map_cons, Text.join_cons, hsome, if_neg (by simp), ih, hbar, ← String.ofList_append,
        ← String.ofList_append]
      rfl
    | case3 state c cs _ ih =>
      rw [join_modifyHead bar c (cutAtBars_ne_nil _ cs), ih, ← String.ofList_append]
      rfl
  rw [pieces, hcut, String.ofList_toList]

/-- No bar outside literals is in the text, and the text ends outside literals. -/
def Uncut (cs : List Char) : Prop :=
  ∀ rest, cutAtBars .outside (cs ++ rest) =
    (cutAtBars .outside rest).modifyHead (fun piece => cs ++ piece)

theorem uncut_nil : Uncut [] := fun _ => List.modifyHead_id.symm ▸ rfl

theorem Uncut.append {as bs : List Char} (ha : Uncut as) (hb : Uncut bs) : Uncut (as ++ bs) := by
  intro rest
  rw [List.append_assoc, ha, hb, List.modifyHead_modifyHead]
  simp [Function.comp_def]

theorem uncut_char {c : Char} (hspace : c ≠ ' ') (hquote : c ≠ '\x27') : Uncut [c] := by
  intro rest
  have hafter : LiteralState.after c .outside = .outside := if_neg hquote
  rw [List.singleton_append, cutAtBars_cons (fun _ => hspace), hafter]
  rfl

/-- A character that neither begins a bar nor opens a literal. -/
def isHarmless (c : Char) : Bool := !(c == ' ' || c == '\x27')

theorem uncut_of_all {cs : List Char} (h : cs.all isHarmless = true) : Uncut cs := by
  induction cs with
  | nil => exact uncut_nil
  | cons c cs ih =>
    rw [List.all_cons, Bool.and_eq_true] at h
    have hc : c ≠ ' ' ∧ c ≠ '\x27' := by simpa [isHarmless] using h.1
    exact (uncut_char hc.1 hc.2).append (ih h.2)

/-- Inside a literal the form of a character is read without leaving it. -/
theorem cutAtBars_escapeChar (c : Char) (rest : List Char) :
    cutAtBars .inside (escapeChar c ++ rest) =
      (cutAtBars .inside rest).modifyHead (fun piece => escapeChar c ++ piece) := by
  rw [escapeChar]
  split
  · have hback : LiteralState.after '\x5c' .inside = .escaped := rfl
    rw [List.cons_append, cutAtBars_cons (by simp), hback, List.singleton_append,
      cutAtBars_cons (by simp), List.modifyHead_modifyHead]
    rfl
  · rename_i h
    rw [Bool.or_eq_true, beq_iff_eq, beq_iff_eq, not_or] at h
    have hstay : LiteralState.after c .inside = .inside := by
      rw [LiteralState.after, if_neg h.1, if_neg h.2]
    rw [List.singleton_append, cutAtBars_cons (by simp), hstay]
    rfl

theorem uncut_literal (value : String) : Uncut (literal value).toList := by
  intro rest
  have hvalue : ∀ cs : List Char,
      cutAtBars .inside (cs.flatMap escapeChar ++ '\x27' :: rest) =
        (cutAtBars .outside rest).modifyHead
          (fun piece => cs.flatMap escapeChar ++ '\x27' :: piece) := by
    intro cs
    induction cs with
    | nil =>
      have hleave : LiteralState.after '\x27' .inside = .outside := rfl
      rw [List.flatMap_nil, List.nil_append, cutAtBars_cons (by simp), hleave]
      rfl
    | cons c cs ih =>
      rw [List.flatMap_cons, List.append_assoc, cutAtBars_escapeChar, ih,
        List.modifyHead_modifyHead]
      simp [Function.comp_def]
  have henter : LiteralState.after '\x27' .outside = .inside := rfl
  have hopen : (literal value).toList ++ rest =
      '\x27' :: (value.toList.flatMap escapeChar ++ '\x27' :: rest) := by
    simp [literal]
  rw [hopen, cutAtBars_cons (by simp), henter, hvalue, List.modifyHead_modifyHead]
  simp [literal, Function.comp_def]

theorem pieces_of_uncut {text : String} (h : Uncut text.toList) : pieces text = [text] := by
  have hcut := h []
  rw [List.append_nil] at hcut
  rw [pieces, hcut]
  simp [cutAtBars]

/-- A bar behind the text ends its last piece. -/
def EndsPiece (cs : List Char) : Prop :=
  ∀ rest, cutAtBars .outside (cs ++ (bar.toList ++ rest)) =
    cutAtBars .outside cs ++ cutAtBars .outside rest

theorem Uncut.endsPiece {cs : List Char} (h : Uncut cs) : EndsPiece cs := by
  intro rest
  have hcut := h []
  rw [List.append_nil] at hcut
  rw [h, cutAtBars_bar, hcut]
  simp [cutAtBars]

theorem EndsPiece.append {as bs : List Char} (ha : EndsPiece as) (hb : EndsPiece bs) :
    EndsPiece (as ++ (bar.toList ++ bs)) := by
  intro rest
  have hassoc : as ++ (bar.toList ++ bs) ++ (bar.toList ++ rest) =
      as ++ (bar.toList ++ (bs ++ (bar.toList ++ rest))) := by simp
  rw [hassoc, ha, hb, ha, List.append_assoc]

theorem toList_join_bar (first second : String) (rest : List String) :
    (Text.join bar (first :: second :: rest)).toList =
      first.toList ++ (bar.toList ++ (Text.join bar (second :: rest)).toList) := by
  simp [Text.join]

section

variable {texts : List String} (hne : texts ≠ []) (h : ∀ text ∈ texts, EndsPiece text.toList)

include hne h

theorem endsPiece_join : EndsPiece (Text.join bar texts).toList := by
  induction texts with
  | nil => exact absurd rfl hne
  | cons text rest ih =>
    have hfirst := h text List.mem_cons_self
    cases rest with
    | nil => exact hfirst
    | cons next rest =>
      have hrest := ih (by simp) fun t ht => h t (List.mem_cons_of_mem text ht)
      rw [toList_join_bar]
      exact hfirst.append hrest

/-- Joined texts are cut into the pieces of each. -/
theorem pieces_join : pieces (Text.join bar texts) = texts.flatMap pieces := by
  induction texts with
  | nil => exact absurd rfl hne
  | cons text rest ih =>
    cases rest with
    | nil => simp [Text.join]
    | cons next rest =>
      have hrest := ih (by simp) fun t ht => h t (List.mem_cons_of_mem text ht)
      rw [List.flatMap_cons, ← hrest, pieces, toList_join_bar, h text List.mem_cons_self,
        List.map_append]
      rfl

end

end YangScript
