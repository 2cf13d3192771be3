import YangScript.Proofs.Capitals

/-!
# Compounds are joined segments

A compound is made in one pass over a name. It is what splitting the name at its delimiters,
giving every segment its capital and joining the segments makes. So compounds of names behind one
another are compounds behind one another, and a compound has neither a delimiter to go nor a
capital to take.
-/

set_option autoImplicit false

namespace YangScript.Text

/-- The segments joined; whether the first of them begins a word is told by `fresh`. -/
def joinSegments (fresh : Bool) : List (List Char) → List Char
  | [] => []
  | piece :: pieces => (if fresh then capitalize piece else piece) ++ pieces.flatMap capitalize

theorem joinSegments_fresh (pieces : List (List Char)) :
    joinSegments true pieces = pieces.flatMap capitalize := by
  cases pieces <;> rfl

theorem compound_eq_joinSegments (fresh : Bool) (cs : List Char) :
    compound fresh cs = joinSegments fresh (segments isDelimiter cs) := by
  induction cs generalizing fresh with
  | nil => cases fresh <;> rfl
  | cons c cs ih =>
    by_cases hc : isDelimiter c = true
    · rw [compound_delimiter fresh c cs hc, segments_cut isDelimiter c cs hc, ih,
        joinSegments_fresh]
      cases fresh <;> rfl
    · have hletter : isDelimiter c = false := by simpa using hc
      obtain ⟨piece, pieces, hrest, hkeep⟩ := segments_keep isDelimiter c cs hletter
      rw [compound_letter fresh c cs hletter, ih, hrest, hkeep]
      cases fresh with
      | true => exact (List.append_assoc ..).symm
      | false => rfl

theorem compound_fresh (cs : List Char) :
    compound true cs = (segments isDelimiter cs).flatMap capitalize := by
  rw [compound_eq_joinSegments, joinSegments_fresh]

theorem compound_append {d : Char} (hd : isDelimiter d = true) (cs ds : List Char) :
    compound true (cs ++ d :: ds) = compound true cs ++ compound true ds := by
  simp only [compound_fresh, segments_append_cut isDelimiter cs ds d hd, List.flatMap_append]

theorem isDelimiter_of_mem_compound {fresh : Bool} {cs : List Char} :
    ∀ d ∈ compound fresh cs, isDelimiter d = false := by
  induction cs generalizing fresh with
  | nil => simp [compound]
  | cons c cs ih =>
    by_cases hc : isDelimiter c = true
    · rw [compound_delimiter fresh c cs hc]
      exact ih
    · have hletter : isDelimiter c = false := by simpa using hc
      rw [compound_letter fresh c cs hletter, List.forall_mem_append]
      refine ⟨fun d hd => ?_, ih⟩
      cases fresh with
      | true => exact isDelimiter_of_mem_uppercase hletter hd
      | false =>
        rw [List.mem_singleton.mp hd]
        exact hletter

/-- A compound starts with a character that is its own capital, if with any. -/
theorem capitalize_compound (cs : List Char) :
    capitalize (compound true cs) = compound true cs := by
  induction cs with
  | nil => rfl
  | cons c cs ih =>
    by_cases hc : isDelimiter c = true
    · rw [compound_delimiter true c cs hc]
      exact ih
    · obtain ⟨d, ds, hcapital, hself⟩ := exists_uppercase c
      rw [compound_letter true c cs (by simpa using hc), if_pos rfl, hcapital, List.cons_append,
        capitalize, hself]
      rfl

theorem compound_compound (cs : List Char) :
    compound true (compound true cs) = compound true cs := by
  rw [compound_fresh (compound true cs),
    segments_of_free isDelimiter _ isDelimiter_of_mem_compound, List.flatMap_singleton,
    capitalize_compound]

/-- The casing of a name splits it at its delimiters and joins the segments, each with its capital.
It takes apart what a delimiter keeps apart, it leaves no delimiter, and doing it again changes
nothing. -/
theorem pascalCase_splits_and_joins (s : String) :
    pascalCase s = String.ofList ((segments isDelimiter s.toList).flatMap capitalize) ∧
      (∀ t, pascalCase (s ++ "-" ++ t) = pascalCase s ++ pascalCase t ∧
        pascalCase (s ++ "_" ++ t) = pascalCase s ++ pascalCase t) ∧
      (∀ c ∈ (pascalCase s).toList, isDelimiter c = false) ∧
      pascalCase (pascalCase s) = pascalCase s := by
  refine ⟨?_, fun t => ⟨?_, ?_⟩, ?_, ?_⟩
  · rw [pascalCase, compound_fresh]
  · rw [pascalCase, pascalCase, pascalCase, ← String.ofList_append, String.toList_append,
      String.toList_append, List.append_assoc]
    exact congrArg String.ofList (compound_append (d := '-') rfl _ _)
  · rw [pascalCase, pascalCase, pascalCase, ← String.ofList_append, String.toList_append,
      String.toList_append, List.append_assoc]
    exact congrArg String.ofList (compound_append (d := '_') rfl _ _)
  · rw [pascalCase, String.toList_ofList]
    exact isDelimiter_of_mem_compound
  · rw [pascalCase, pascalCase, String.toList_ofList, compound_compound]

example : pascalCase "a--b__ﬁc" = "ABFIc" := by decide +kernel

end YangScript.Text
