/-!
# Cutting a text at the first occurrence of a mark

`cut? mark cs` gives what stands before the first occurrence of `mark` and what follows it. The
mark itself is dropped.
-/

set_option autoImplicit false

namespace YangScript.Text

def cut? (mark : List Char) : List Char → Option (List Char × List Char)
  | [] => if mark.isEmpty then some ([], []) else none
  | c :: cs =>
    if mark.isPrefixOf (c :: cs) then some ([], (c :: cs).drop mark.length)
    else (cut? mark cs).map (fun parts => (c :: parts.1, parts.2))

theorem append_of_cut? (mark cs before after : List Char) (h : cut? mark cs = some (before, after)) :
    cs = before ++ mark ++ after := by
  induction cs generalizing before with
  | nil =>
    simp only [cut?] at h
    split at h
    · rename_i hm
      simp only [Option.some.injEq, Prod.mk.injEq] at h
      simp [← h.1, ← h.2, List.isEmpty_iff.mp hm]
    · simp at h
  | cons c cs ih =>
    rw [cut?] at h
    split at h
    · rename_i hp
      simp only [Option.some.injEq, Prod.mk.injEq] at h
      obtain ⟨tail, ht⟩ := List.isPrefixOf_iff_prefix.mp hp
      rw [← h.1, ← h.2, ← ht]
      simp
    · obtain ⟨⟨b, a⟩, hp, he⟩ := Option.map_eq_some_iff.mp h
      simp only [Prod.mk.injEq] at he
      obtain ⟨rfl, rfl⟩ := he
      simpa using ih b hp

theorem length_of_cut? (mark cs before after : List Char) (h : cut? mark cs = some (before, after)) :
    after.length + mark.length ≤ cs.length := by
  rw [append_of_cut? mark cs before after h]
  simp only [List.length_append]
  omega

/-- A mark whose last character stands in it once cannot begin inside a text that does not hold it
and end behind that text, where the mark itself follows. -/
theorem not_prefix_overlap (front : List Char) (last : Char) (h : last ∉ front)
    (body rest : List Char) (hne : body ≠ []) (hb : ¬ front ++ [last] <+: body) :
    ¬ front ++ [last] <+: body ++ (front ++ [last] ++ rest) := by
  intro hp
  rcases List.prefix_or_prefix_of_prefix hp (List.prefix_append _ _) with hin | ⟨tail, hend⟩
  · exact hb hin
  · rw [← hend, List.prefix_append_right_inj] at hp
    have hlen : tail.length < (front ++ [last]).length := by
      rw [← hend, List.length_append]
      have := List.length_pos_iff.mpr hne
      omega
    have hlast : last ∈ tail := by
      rcases List.eq_nil_or_concat tail with rfl | ⟨init, c, rfl⟩
      · exact absurd ⟨[], by simpa using hend.symm⟩ hb
      · have : c = last := by
          have := congrArg List.getLast? hend
          simpa using this
        simp [this]
    have hpre : tail <+: front ++ [last] :=
      List.prefix_of_prefix_length_le hp (by rw [hend]; exact List.prefix_append _ _) (by omega)
    rcases List.prefix_concat_iff.mp hpre with heq | hfront
    · rw [heq] at hlen
      exact absurd hlen (by simp)
    · exact h (hfront.subset hlast)

theorem cut?_prefix (mark rest : List Char) (h : mark ≠ []) :
    cut? mark (mark ++ rest) = some ([], rest) := by
  obtain ⟨c, cs, rfl⟩ := List.exists_cons_of_ne_nil h
  have hp : (c :: cs).isPrefixOf (c :: (cs ++ rest)) = true :=
    List.isPrefixOf_iff_prefix.mpr (List.prefix_append (c :: cs) rest)
  rw [List.cons_append, cut?, if_pos hp, ← List.cons_append, List.drop_left]

/-- The mark is found where it was written, behind a text that does not hold it. -/
theorem cut?_written (front : List Char) (last : Char) (h : last ∉ front) (body rest : List Char)
    (hb : ¬ front ++ [last] <:+: body) :
    cut? (front ++ [last]) (body ++ (front ++ [last] ++ rest)) = some (body, rest) := by
  induction body with
  | nil => exact cut?_prefix _ rest (by simp)
  | cons c cs ih =>
    have hcs : ¬ front ++ [last] <:+: cs := fun hi => hb (List.infix_cons hi)
    have hp := not_prefix_overlap front last h (c :: cs) rest (by simp)
      (fun hp => hb hp.isInfix)
    have hp' : ¬ (front ++ [last]).isPrefixOf (c :: (cs ++ (front ++ [last] ++ rest))) = true :=
      fun e => hp (List.isPrefixOf_iff_prefix.mp e)
    rw [List.cons_append, cut?, if_neg hp', ih hcs]
    rfl

end YangScript.Text
