/-!
# Segments of a text

A text is cut at every character of a class; the characters of the class are dropped and every
piece between them, empty or not, is kept. Words are the pieces that are not empty.
-/

set_option autoImplicit false

namespace YangScript.Text

/-- The pieces between the characters that satisfy `cut`. There is always at least one. -/
def segments (cut : Char → Bool) : List Char → List (List Char)
  | [] => [[]]
  | c :: cs =>
    if cut c then [] :: segments cut cs
    else
      match segments cut cs with
      | [] => [[c]]
      | piece :: pieces => (c :: piece) :: pieces

theorem segments_ne_nil (cut : Char → Bool) (cs : List Char) : segments cut cs ≠ [] := by
  cases cs with
  | nil => simp [segments]
  | cons c cs =>
    rw [segments]
    split
    · simp
    · split <;> simp

theorem segments_cut (cut : Char → Bool) (c : Char) (cs : List Char) (h : cut c = true) :
    segments cut (c :: cs) = [] :: segments cut cs := by
  simp [segments, h]

theorem segments_keep (cut : Char → Bool) (c : Char) (cs : List Char) (h : cut c = false) :
    ∃ piece pieces, segments cut cs = piece :: pieces ∧
      segments cut (c :: cs) = (c :: piece) :: pieces := by
  cases hs : segments cut cs with
  | nil => exact absurd hs (segments_ne_nil cut cs)
  | cons piece pieces => exact ⟨piece, pieces, rfl, by simp [segments, h, hs]⟩

/-- No piece holds a character at which the text is cut. -/
theorem segments_free (cut : Char → Bool) (cs : List Char) :
    ∀ piece ∈ segments cut cs, ∀ c ∈ piece, cut c = false := by
  induction cs with
  | nil => simp [segments]
  | cons c cs ih =>
    by_cases h : cut c = true
    · simpa [segments_cut cut c cs h] using ih
    · have h' : cut c = false := by simpa using h
      obtain ⟨piece, pieces, hs, hc⟩ := segments_keep cut c cs h'
      rw [hs] at ih
      rw [hc]
      intro q hq d hd
      rcases List.mem_cons.mp hq with rfl | hq
      · rcases List.mem_cons.mp hd with rfl | hd
        · exact h'
        · exact ih piece (by simp) d hd
      · exact ih q (by simp [hq]) d hd

theorem segments_append_cut (cut : Char → Bool) (cs ds : List Char) (c : Char) (h : cut c = true) :
    segments cut (cs ++ c :: ds) = segments cut cs ++ segments cut ds := by
  induction cs with
  | nil => exact segments_cut cut c ds h
  | cons b cs ih =>
    by_cases hb : cut b = true
    · rw [List.cons_append, segments_cut cut b _ hb, segments_cut cut b _ hb, ih]
      rfl
    · have hb' : cut b = false := by simpa using hb
      obtain ⟨piece, pieces, hs, hc⟩ := segments_keep cut b cs hb'
      rw [hc, List.cons_append, segments, if_neg hb, ih, hs]
      rfl

theorem segments_of_free (cut : Char → Bool) (cs : List Char) (h : ∀ c ∈ cs, cut c = false) :
    segments cut cs = [cs] := by
  induction cs with
  | nil => rfl
  | cons c cs ih =>
    have hc : ¬ cut c = true := by simp [h c List.mem_cons_self]
    rw [segments, if_neg hc, ih (fun d hd => h d (List.mem_cons_of_mem c hd))]

/-- The pieces that are not empty, in order. -/
def words (cut : Char → Bool) (s : String) : List String :=
  ((segments cut s.toList).filter (fun piece => !piece.isEmpty)).map String.ofList

theorem words_append_cut (cut : Char → Bool) (cs ds : List Char) (c : Char) (h : cut c = true) :
    words cut (String.ofList (cs ++ c :: ds)) =
      words cut (String.ofList cs) ++ words cut (String.ofList ds) := by
  simp [words, segments_append_cut cut cs ds c h]

theorem words_of_free (cut : Char → Bool) (s : String) (hne : s ≠ "")
    (h : ∀ c ∈ s.toList, cut c = false) : words cut s = [s] := by
  rw [words, segments_of_free cut s.toList h]
  simp [hne]

/-- A text without words is cut at each of its characters. -/
theorem cut_of_no_piece (cut : Char → Bool) (cs : List Char)
    (h : (segments cut cs).filter (fun piece => !piece.isEmpty) = []) :
    ∀ c ∈ cs, cut c = true := by
  induction cs with
  | nil => simp
  | cons c cs ih =>
    by_cases hc : cut c = true
    · rw [segments_cut cut c cs hc, List.filter_cons_of_neg (by simp)] at h
      exact List.forall_mem_cons.mpr ⟨hc, ih h⟩
    · obtain ⟨piece, pieces, -, hkeep⟩ := segments_keep cut c cs (by simpa using hc)
      rw [hkeep, List.filter_cons_of_pos (by simp)] at h
      exact absurd h (by simp)

/-- Behind the first piece nothing is left but characters at which the text is cut, if no other
piece holds anything. -/
theorem exists_trail_of_piece (cut : Char → Bool) {cs piece : List Char}
    {pieces : List (List Char)} (hs : segments cut cs = piece :: pieces)
    (hrest : pieces.filter (fun piece => !piece.isEmpty) = []) :
    ∃ trail, cs = piece ++ trail ∧ ∀ c ∈ trail, cut c = true := by
  induction cs generalizing piece pieces with
  | nil =>
    rw [segments, List.cons.injEq] at hs
    exact ⟨[], by rw [← hs.1, List.nil_append], by simp⟩
  | cons c cs ih =>
    by_cases hc : cut c = true
    · rw [segments_cut cut c cs hc, List.cons.injEq] at hs
      rw [← hs.2] at hrest
      rw [← hs.1]
      exact ⟨c :: cs, rfl, List.forall_mem_cons.mpr ⟨hc, cut_of_no_piece cut cs hrest⟩⟩
    · obtain ⟨tail, pieces', htail, hkeep⟩ := segments_keep cut c cs (by simpa using hc)
      rw [hkeep, List.cons.injEq] at hs
      rw [← hs.2] at hrest
      rw [← hs.1]
      obtain ⟨trail, hcs, htrail⟩ := ih htail hrest
      exact ⟨trail, by rw [hcs, List.cons_append], htrail⟩

/-- The only piece that holds anything has characters around it at which the text is cut. -/
theorem exists_padding_of_piece (cut : Char → Bool) {cs piece : List Char}
    (h : (segments cut cs).filter (fun piece => !piece.isEmpty) = [piece]) :
    ∃ lead trail, cs = lead ++ piece ++ trail ∧ ∀ c ∈ lead ++ trail, cut c = true := by
  induction cs with
  | nil => exact absurd h (by simp [segments])
  | cons c cs ih =>
    by_cases hc : cut c = true
    · rw [segments_cut cut c cs hc, List.filter_cons_of_neg (by simp)] at h
      obtain ⟨lead, trail, hpad, hall⟩ := ih h
      exact ⟨c :: lead, trail, by rw [hpad]; rfl, List.forall_mem_cons.mpr ⟨hc, hall⟩⟩
    · obtain ⟨tail, pieces, htail, hkeep⟩ := segments_keep cut c cs (by simpa using hc)
      rw [hkeep, List.filter_cons_of_pos (by simp), List.cons.injEq] at h
      obtain ⟨trail, hpad, hall⟩ := exists_trail_of_piece cut htail h.2
      exact ⟨[], trail, by rw [← h.1, hpad]; rfl, hall⟩

/-- A text with one word is that word with characters around it at which the text is cut. -/
theorem exists_padding_of_words (cut : Char → Bool) {s word : String} (h : words cut s = [word]) :
    ∃ lead trail : List Char, s = String.ofList lead ++ word ++ String.ofList trail ∧
      ∀ c ∈ lead ++ trail, cut c = true := by
  obtain ⟨piece, hpieces, rfl⟩ := List.map_eq_singleton_iff.mp h
  obtain ⟨lead, trail, hpad, hall⟩ := exists_padding_of_piece cut hpieces
  refine ⟨lead, trail, ?_, hall⟩
  rw [← String.ofList_append, ← String.ofList_append, ← hpad, String.ofList_toList]

end YangScript.Text
