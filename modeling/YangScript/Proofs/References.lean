import Mathlib.Data.List.Forall2
import YangScript.Proofs.Rejection
import YangScript.Proofs.Writing

/-!
# Texts written with references

A reference stands for one character: it has one of five names, or is the decimal or hexadecimal
number of the character. A text may be written with references for some of its characters, and has
to be for `&`, `<` and quotes. A reference is always longer than the character that it stands for,
so that a written text is the text it means only where nothing is written as a reference.
-/

set_option autoImplicit false

namespace YangScript

open Text

/-! ## The characters that references stand for -/

def hexadecimalDigits : List Char := "0123456789abcdef".toList

def digit? (base : Nat) (c : Char) : Option Nat :=
  (hexadecimalDigits.idxOf? c.toLower).filter (fun n => decide (n < base))

/-- A number in a base up to sixteen, the most significant digit first. -/
def numeral? (base : Nat) (cs : List Char) : Option Nat :=
  if cs.isEmpty then none
  else cs.foldlM (fun n c => (digit? base c).map (fun d => base * n + d)) 0

/-- The character of a code point. -/
def charOf? (n : Nat) : Option Char :=
  if n.isValidChar then some (Char.ofNat n) else none

/-- The character that the reference of a name stands for. -/
def referent? : List Char → Option Char
  | '#' :: 'x' :: digits => (numeral? 16 digits).bind charOf?
  | '#' :: digits => (numeral? 10 digits).bind charOf?
  | ['a', 'm', 'p'] => some '&'
  | ['l', 't'] => some '<'
  | ['g', 't'] => some '>'
  | ['q', 'u', 'o', 't'] => some '"'
  | ['a', 'p', 'o', 's'] => some '\''
  | _ => none

example : referent? "#45".toList = some '-' ∧ referent? "#x2D".toList = some '-' := by decide

/-- The text `v` is written as `w`. -/
inductive Escaped : List Char → List Char → Prop where
  | nil : Escaped [] []
  | plain {v w : List Char} (c : Char) (h : isPlain c = true) (rest : Escaped v w) :
      Escaped (c :: v) (c :: w)
  | reference {v w : List Char} (name : List Char) (c : Char) (h : referent? name = some c)
      (rest : Escaped v w) : Escaped (c :: v) ('&' :: name ++ ';' :: w)

def Escapes (v w : String) : Prop := Escaped v.toList w.toList

namespace Escaped

variable {v w : List Char}

/-- Every reference is longer than its character. -/
theorem length_add_count_le (h : Escaped v w) : v.length + w.count '&' ≤ w.length := by
  induction h with
  | nil => exact Nat.le_refl 0
  | plain c hc rest ih =>
    have hne : c ≠ '&' := fun he => absurd (he ▸ hc) (by decide)
    rw [List.count_cons_of_ne hne, List.length_cons, List.length_cons]
    omega
  | @reference v w name c hc rest ih =>
    have hname := List.count_le_length (a := '&') (l := name)
    have hmark : (';' :: w).count '&' = w.count '&' := List.count_cons_of_ne (by decide)
    rw [List.cons_append, List.count_cons_self, List.count_append, hmark]
    simp only [List.length_cons, List.length_append]
    omega

/-- A text without references means itself. -/
theorem eq_of_not_mem (h : Escaped v w) (hno : '&' ∉ w) : w = v := by
  induction h with
  | nil => rfl
  | plain c hc rest ih => rw [ih (fun hm => hno (List.mem_cons_of_mem c hm))]
  | reference name c hc rest ih => exact absurd (List.mem_append_left _ List.mem_cons_self) hno

theorem of_plain (cs : List Char) (h : ∀ c ∈ cs, isPlain c = true) : Escaped cs cs := by
  induction cs with
  | nil => exact nil
  | cons c cs ih =>
    obtain ⟨hc, hcs⟩ := List.forall_mem_cons.mp h
    exact plain c hc (ih hcs)

end Escaped

namespace Escapes

variable {v w : String}

/-- Where nothing needs care, nothing need be written as a reference. -/
theorem of_plain {s : String} (h : Plain s) : Escapes s s := Escaped.of_plain s.toList h

theorem length_le (h : Escapes v w) : v.length ≤ w.length := by
  have hle := Escaped.length_add_count_le h
  simp only [String.length_toList] at hle
  omega

theorem not_mem_of_length (h : Escapes v w) (hlength : w.length ≤ v.length) :
    '&' ∉ w.toList := by
  intro hmem
  have hle := Escaped.length_add_count_le h
  have hpos := List.count_pos_iff.mpr hmem
  simp only [String.length_toList] at hle
  omega

theorem eq_iff (h : Escapes v w) : w = v ↔ '&' ∉ w.toList := by
  constructor
  · rintro rfl
    exact h.not_mem_of_length (Nat.le_refl _)
  · intro hno
    exact String.toList_injective (Escaped.eq_of_not_mem h hno)

end Escapes

/-! ## The dates of revisions -/

namespace Xml

/-- The content is the text `v` with references for some of its characters, behind some white space
`lead` and with white space after it. -/
def Content.SpellsText (lead v : List Char) : Content → Prop
  | .last text =>
    ∃ trail, (∀ c ∈ trail, isWhiteSpace c = true) ∧ text.chars = lead ++ v ++ trail
  | .next text node rest =>
    ∃ name closed c run tail, node = .aside (.reference name closed) ∧ referent? name = some c ∧
      text.chars = lead ++ run ∧ v = run ++ c :: tail ∧ rest.SpellsText [] tail

/-- A date is written as an attribute, or as the text of the element, with white space around. -/
def Node.SpellsDate (date : String) (n : Node) : Prop :=
  (∃ w, n.value? "date" = some w ∧ Escapes date w) ∨
    n.value? "date" = none ∧ date ≠ "" ∧ trim date = date ∧
      ∃ lead, (∀ c ∈ lead, isWhiteSpace c = true) ∧ n.content.SpellsText lead date.toList

/-- The text that a date is written with. -/
def Node.dateText (n : Node) : String :=
  (n.value? "date").getD (String.ofList n.content.chars)

theorem CharData.count_reference (text : CharData) : text.chars.count '&' = 0 :=
  List.count_eq_zero.mpr fun hm => absurd (text.legal '&' hm) (by decide)

namespace Content

variable {c : Content} {lead v : List Char}

/-- The runs between references, each without the white space around it, are shorter than the text
by a character for every reference. -/
theorem SpellsText.length_add_count_le (h : c.SpellsText lead v)
    (hlead : ∀ c ∈ lead, isWhiteSpace c = true) :
    c.plainText.length + c.chars.count '&' ≤ v.length := by
  induction c using Content.induction generalizing lead v with
  | last text =>
    obtain ⟨trail, htrail, hchars⟩ := h
    have hle := length_trim_le (String.ofList v)
    rw [String.length_ofList] at hle
    rw [plainText, Content.chars, text.count_reference, hchars, trim_padded hlead htrail,
      Nat.add_zero]
    exact hle
  | next text node rest _ ihrest =>
    obtain ⟨name, closed, c, run, tail, rfl, -, hchars, rfl, hrest⟩ := h
    have hrun := length_trim_le (String.ofList run)
    have hpadded := trim_padded hlead (List.forall_mem_nil _) run
    have hnode : (Node.aside (.reference name closed)).chars.count '&' = 1 := by
      have hname : name.count '&' = 0 :=
        List.count_eq_zero.mpr fun hm => (closed '&' hm).2.1 rfl
      rw [Node.chars, Aside.chars, List.cons_append, List.count_cons_self, List.count_append, hname]
      rfl
    have htail := ihrest hrest (List.forall_mem_nil _)
    rw [List.append_nil] at hpadded
    rw [String.length_ofList] at hrun
    rw [plainText, hchars, hpadded, String.length_append, Content.chars, List.count_append,
      List.count_append, text.count_reference, hnode, List.length_append, List.length_cons]
    omega

/-- The date that is read is the one that is meant only where it is written without references. -/
theorem SpellsText.plainText_eq_iff {date : String} (h : c.SpellsText lead date.toList)
    (hlead : ∀ c ∈ lead, isWhiteSpace c = true) (htrim : trim date = date) :
    c.plainText = date ↔ '&' ∉ c.chars := by
  constructor
  · rintro rfl hmem
    have hle := h.length_add_count_le hlead
    have hpos := List.count_pos_iff.mpr hmem
    rw [String.length_toList] at hle
    omega
  · intro hno
    -- without a reference there is no node, and so a single run
    cases c with
    | last text =>
      obtain ⟨trail, htrail, hchars⟩ := h
      rw [plainText, hchars, trim_padded hlead htrail, String.ofList_toList, htrim]
    | next text node rest =>
      obtain ⟨name, closed, c, run, tail, rfl, -⟩ := h
      exact absurd (by simp [Content.chars, Node.chars, Aside.chars]) hno

end Content

theorem Node.SpellsDate.date_eq_iff {date : String} {n : Node} (h : n.SpellsDate date) :
    n.date = date ↔ '&' ∉ n.dateText.toList := by
  rw [Node.date, dateText]
  rcases h with ⟨w, hw, hescapes⟩ | ⟨hnone, -, htrim, lead, hlead, htext⟩
  · rw [hw]
    exact hescapes.eq_iff
  · rw [hnone, Option.getD_none, Option.getD_none, String.toList_ofList]
    exact htext.plainText_eq_iff hlead htrim

/-- A revision that is read with the date that is meant has a date. -/
theorem Node.SpellsDate.revisionViolations_eq {date : String} {n : Node} (h : n.SpellsDate date)
    (hdate : n.date = date) : n.revisionViolations = [] := by
  rw [revisionViolations]
  rcases h with ⟨w, hw, -⟩ | ⟨hnone, hne, -, -⟩
  · rw [hw]
    rfl
  · have hplain : n.content.plainText = date := by
      rw [Node.date, hnone] at hdate
      exact hdate
    have hsome : n.content.hasPlainText = true := by
      rw [Content.hasPlainText_iff, hplain]
      exact hne
    rw [hnone, hsome]
    rfl

theorem Node.dates_eq_iff {dates : List String} {revisions : List Node}
    (h : List.Forall₂ Node.SpellsDate dates revisions) :
    revisions.map Node.date = dates ↔ ∀ n ∈ revisions, '&' ∉ n.dateText.toList := by
  induction h with
  | nil => simp
  | cons hnode _ ih =>
    rw [List.map_cons, List.cons.injEq, hnode.date_eq_iff, ih, List.forall_mem_cons]

theorem Node.revisionViolations_of_dates_eq {dates : List String} {revisions : List Node}
    (h : List.Forall₂ Node.SpellsDate dates revisions) (hdates : revisions.map Node.date = dates) :
    revisions.flatMap Node.revisionViolations = [] := by
  induction h with
  | nil => rfl
  | cons hnode _ ih =>
    rw [List.map_cons, List.cons.injEq] at hdates
    rw [List.flatMap_cons, hnode.revisionViolations_eq hdates.1, ih hdates.2]
    rfl

end Xml

end YangScript
