import YangScript.Text.Segments
import YangScript.Text.Uppercase

/-!
# Capitalised compounds

A name written with hyphens or underscores becomes one word: the delimiters go, and the first
character after each of them, like the first of all, takes its capital. The characters that
follow keep their case.
-/

set_option autoImplicit false

namespace YangScript.Text

def isDelimiter (c : Char) : Bool := c == '-' || c == '_'

/-- Reads on with `fresh` saying that the next character begins a word. -/
def compound (fresh : Bool) : List Char → List Char
  | [] => []
  | c :: cs =>
    if isDelimiter c then compound true cs
    else if fresh then uppercase c ++ compound false cs
    else c :: compound false cs

def pascalCase (s : String) : String :=
  String.ofList (compound true s.toList)

/-- One word with its first character replaced by its capital. -/
def capitalize : List Char → List Char
  | [] => []
  | c :: cs => uppercase c ++ cs

theorem compound_delimiter (fresh : Bool) (c : Char) (cs : List Char) (h : isDelimiter c = true) :
    compound fresh (c :: cs) = compound true cs := by
  simp [compound, h]

theorem compound_letter (fresh : Bool) (c : Char) (cs : List Char) (h : isDelimiter c = false) :
    compound fresh (c :: cs) =
      (if fresh then uppercase c else [c]) ++ compound false cs := by
  cases fresh <;> simp [compound, h]

/-- A class that holds a capital if and only if it holds its letter is kept by the joined word. -/
theorem forall_mem_compound_iff {p : Char → Bool} (hp : ∀ c, c.toNat < 128 → p c.toUpper = p c)
    (fresh : Bool) {cs : List Char} (h : ∀ c ∈ cs, c.toNat < 128) :
    (∀ d ∈ compound fresh cs, p d = true) ↔ ∀ c ∈ cs, isDelimiter c = false → p c = true := by
  induction cs generalizing fresh with
  | nil => simp [compound]
  | cons c cs ih =>
    obtain ⟨hc, hcs⟩ := List.forall_mem_cons.mp h
    rw [List.forall_mem_cons]
    by_cases hd : isDelimiter c = true
    · rw [compound_delimiter fresh c cs hd, ih true hcs]
      simp [hd]
    · have hletter : isDelimiter c = false := by simpa using hd
      rw [compound_letter fresh c cs hletter, List.forall_mem_append, ih false hcs,
        uppercase_ascii hc]
      cases fresh <;> simp [hletter, hp c hc]

/-- The joined word starts with the capital of the first character that is no delimiter. -/
theorem head?_compound {cs : List Char} (h : ∀ c ∈ cs, c.toNat < 128) :
    (compound true cs).head? = (cs.find? (fun c => !isDelimiter c)).map Char.toUpper := by
  induction cs with
  | nil => rfl
  | cons c cs ih =>
    obtain ⟨hc, hcs⟩ := List.forall_mem_cons.mp h
    by_cases hd : isDelimiter c = true
    · rw [compound_delimiter true c cs hd, ih hcs, List.find?_cons_of_neg (by simp [hd])]
    · have hletter : isDelimiter c = false := by simpa using hd
      rw [compound_letter true c cs hletter, uppercase_ascii hc,
        List.find?_cons_of_pos (by simp [hletter])]
      rfl

end YangScript.Text
