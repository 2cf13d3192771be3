import YangScript.Xml.Piece

/-!
# Documents as streams of events

A document is read piece by piece, and end tags are matched with the open tags. What results is
a stream of events that ends with the document or with its first fault. Each piece uses up some
of the text, so the reading ends.
-/

set_option autoImplicit false

namespace YangScript.Xml

open YangScript.Text

inductive Event where
  | start (tag : Tag)
  | empty (tag : Tag)
  | close
  | text (s : String)
  | aside

inductive Stream where
  | finished
  | fault (f : Fault)
  | event (e : Event) (rest : Stream)

namespace Step

/-- Every piece that the step yields leaves less than `bound` characters. -/
def Within (bound : Nat) (s : Step) : Prop :=
  ∀ p rest, s = .piece p rest → rest.length < bound

theorem within_fault (bound : Nat) (f : Fault) : Within bound (.fault f) := by
  intro p rest h
  simp at h

theorem within_piece (bound : Nat) (p : Piece) (rest : List Char) (h : rest.length < bound) :
    Within bound (.piece p rest) := by
  intro q r hq
  simp only [piece.injEq] at hq
  rw [← hq.2]
  exact h

theorem Within.mono {s : Step} {m n : Nat} (h : Within m s) (hmn : m ≤ n) : Within n s :=
  fun p rest hp => Nat.lt_of_lt_of_le (h p rest hp) hmn

theorem within_asideTo (mark : List Char) (f : MarkupFault) (cs : List Char) :
    Within (cs.length + 1) (asideTo mark f cs) := by
  unfold asideTo
  split
  · exact within_fault _ _
  · rename_i before rest hc
    have := length_of_cut? mark cs before rest hc
    exact within_piece _ _ _ (by omega)

theorem within_ofTag (cs : List Char) : Within (cs.length + 1) (ofTag cs) := by
  unfold ofTag
  split
  · exact within_fault _ _
  · exact within_fault _ _
  · rename_i content rest hc
    have := length_tagEnd none cs content rest hc
    exact within_piece _ _ _ (by omega)

theorem within_ofCData (cs : List Char) : Within (cs.length + 1) (ofCData cs) := by
  unfold ofCData
  dsimp only
  split
  · refine (within_asideTo _ _ _).mono ?_
    simp only [List.length_drop]
    omega
  · exact within_fault _ _

theorem within_ofComment (cs : List Char) : Within (cs.length + 1) (ofComment cs) := by
  unfold ofComment
  split
  · refine (within_asideTo _ _ _).mono ?_
    simp
  · exact within_fault _ _

theorem within_ofInstruction (cs : List Char) : Within (cs.length + 1) (ofInstruction cs) := by
  unfold ofInstruction
  split
  · exact within_fault _ _
  · exact within_asideTo _ _ _

theorem length_afterSubset? (cs rest : List Char) (h : afterSubset? cs = some rest) :
    rest.length ≤ cs.length := by
  fun_induction afterSubset? cs with
  | case1 => simp at h
  | case2 cs =>
    obtain ⟨⟨b, a⟩, hp, rfl⟩ := Option.map_eq_some_iff.mp h
    have := length_of_cut? _ cs b a hp
    simp only [List.length_cons]
    omega
  | case3 => simp at h
  | case4 cs mid hm hl ih =>
    have := ih h
    simp only [List.length_cons]
    omega
  | case5 c cs _ _ ih =>
    have := ih h
    simp only [List.length_cons]
    omega

theorem length_afterDoctype? (quote : Option Char) (cs rest : List Char)
    (h : afterDoctype? quote cs = some rest) : rest.length ≤ cs.length := by
  induction cs generalizing quote with
  | nil => simp [afterDoctype?] at h
  | cons c cs ih =>
    rw [List.length_cons]
    cases quote with
    | some q =>
      have := ih _ (by simpa [afterDoctype?] using h)
      omega
    | none =>
      rw [afterDoctype?] at h
      split at h
      · simp only [Option.some.injEq] at h
        rw [h]
        omega
      · split at h
        · have := length_afterSubset? cs rest h
          omega
        · have := ih _ h
          omega

theorem within_ofDoctype (cs : List Char) : Within (cs.length + 1) (ofDoctype cs) := by
  unfold ofDoctype
  dsimp only
  split
  · split
    · exact within_fault _ _
    · split
      · exact within_fault _ _
      · rename_i rest hr
        have := length_afterDoctype? _ _ _ hr
        simp only [List.length_drop] at this
        exact within_piece _ _ _ (by omega)
  · exact within_fault _ _

theorem within_ofMarkup (cs : List Char) : Within (cs.length + 1) (ofMarkup cs) := by
  unfold ofMarkup
  split
  · exact within_fault _ _
  · exact (within_ofInstruction _).mono (by simp)
  · rename_i inner
    split
    · exact (within_ofCData _).mono (by simp)
    · exact (within_ofComment _).mono (by simp)
    · exact (within_ofDoctype _).mono (by simp)
    · exact (within_ofDoctype _).mono (by simp)
    · exact within_fault _ _
  · exact within_ofTag _

theorem within_ofReference (cs : List Char) : Within (cs.length + 1) (ofReference cs) := by
  have hd := length_dropWhile_le (fun c => !(c == ';' || c == '&' || c == '<')) cs
  unfold ofReference
  split
  · rename_i rest heq
    rw [heq, List.length_cons] at hd
    exact within_piece _ _ _ (by omega)
  · exact within_fault _ _

theorem within_ofText (cs : List Char) : Within cs.length (ofText cs) := by
  have hd := length_dropWhile_le isBlank cs
  unfold ofText
  split
  · intro p rest h
    simp at h
  · rename_i rest heq
    rw [heq, List.length_cons] at hd
    exact (within_ofMarkup rest).mono hd
  · rename_i rest heq
    rw [heq, List.length_cons] at hd
    exact (within_ofReference rest).mono hd
  · rename_i c rest _ _ heq
    rw [heq, List.length_cons] at hd
    have := length_dropWhile_le inText rest
    exact within_piece _ _ _ (by omega)

end Step

/-- The events of the text `cs` inside the tags named in `opened`, innermost first. -/
def Stream.ofText (opened : List String) (cs : List Char) : Stream :=
  match h : Step.ofText cs with
  | .stop => .finished
  | .fault f => .fault f
  | .piece p rest =>
    have : rest.length < cs.length := Step.within_ofText cs p rest h
    match p with
    | .start tag => .event (.start tag) (ofText (tag.name :: opened) rest)
    | .empty tag => .event (.empty tag) (ofText opened rest)
    | .text s => .event (.text s) (ofText opened rest)
    | .aside => .event .aside (ofText opened rest)
    | .close name =>
      match opened with
      | [] => .fault (.nesting (.strayEnd name))
      | expected :: outer =>
        if name = expected then .event .close (ofText outer rest)
        else .fault (.nesting (.mismatchedEnd expected name))
termination_by cs.length

/-- A byte order mark at the beginning belongs to no text. -/
def dropMark : List Char → List Char
  | '\uFEFF' :: cs => cs
  | cs => cs

def Stream.ofDocument (document : String) : Stream :=
  ofText [] (dropMark document.toList)

end YangScript.Xml
