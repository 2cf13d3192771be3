/-!
# Joining texts and dropping repetitions

`join` puts a separator between texts and nowhere else. `distinct` keeps the first occurrence of
every item.
-/

set_option autoImplicit false

namespace YangScript.Text

def join (separator : String) : List String → String
  | [] => ""
  | [s] => s
  | s :: rest => s ++ separator ++ join separator rest

theorem join_cons (separator s : String) (rest : List String) :
    join separator (s :: rest) =
      s ++ (if rest.isEmpty then "" else separator ++ join separator rest) := by
  cases rest with
  | nil => simp [join]
  | cons t rest => simp [join, String.append_assoc]

/-- The first two texts may be joined beforehand. -/
theorem join_cons_cons (separator s t : String) (rest : List String) :
    join separator (s :: t :: rest) = join separator ((s ++ separator ++ t) :: rest) := by
  cases rest <;> simp [join, String.append_assoc]

/-- What follows the first of some joined texts determines how the others are joined. -/
theorem join_eq_of_tail_eq {separator : String} (hs : separator ≠ "") {rest rest' : List String}
    (h : (if rest.isEmpty then "" else separator ++ join separator rest) =
      if rest'.isEmpty then "" else separator ++ join separator rest') :
    join separator rest = join separator rest' := by
  cases rest with
  | nil =>
    cases rest' with
    | nil => rfl
    | cons t ts => simp [hs] at h
  | cons s ss =>
    cases rest' with
    | nil => simp [hs] at h
    | cons t ts => simpa using h

def distinct {α : Type} [DecidableEq α] : List α → List α
  | [] => []
  | a :: rest => a :: (distinct rest).filter (fun b => decide (b ≠ a))

theorem mem_distinct {α : Type} [DecidableEq α] (a : α) (items : List α) :
    a ∈ distinct items ↔ a ∈ items := by
  induction items with
  | nil => simp [distinct]
  | cons b rest ih =>
    by_cases h : a = b
    · simp [distinct, h]
    · simp [distinct, h, ih]

theorem distinct_ne_nil {α : Type} [DecidableEq α] {items : List α} (h : items ≠ []) :
    distinct items ≠ [] := by
  obtain ⟨a, ha⟩ := List.exists_mem_of_ne_nil items h
  exact List.ne_nil_of_mem ((mem_distinct a items).mpr ha)

theorem nodup_distinct {α : Type} [DecidableEq α] (items : List α) : (distinct items).Nodup := by
  induction items with
  | nil => simp [distinct]
  | cons b rest ih =>
    rw [distinct, List.nodup_cons]
    exact ⟨by simp, ih.filter _⟩

theorem distinct_map {α β : Type} [DecidableEq α] [DecidableEq β] {f : α → β}
    (hf : Function.Injective f) (items : List α) :
    distinct (items.map f) = (distinct items).map f := by
  induction items with
  | nil => rfl
  | cons a rest ih =>
    have hsame : ∀ b, decide (f b ≠ f a) = decide (b ≠ a) := by
      intro b
      simp [hf.eq_iff]
    rw [List.map_cons, distinct, ih, distinct, List.map_cons, List.filter_map]
    simp only [Function.comp_def, hsame]

/-- Only one item is left if there was no other. -/
theorem distinct_eq_singleton_iff {α : Type} [DecidableEq α] (a : α) (items : List α) :
    distinct items = [a] ↔ items ≠ [] ∧ ∀ b ∈ items, b = a := by
  constructor
  · intro h
    refine ⟨?_, fun b hb => ?_⟩
    · rintro rfl
      exact absurd h (by simp [distinct])
    · rw [← mem_distinct, h, List.mem_singleton] at hb
      exact hb
  · rintro ⟨hne, hall⟩
    obtain ⟨first, rest, rfl⟩ := List.exists_cons_of_ne_nil hne
    obtain ⟨rfl, hrest⟩ := List.forall_mem_cons.mp hall
    rw [distinct, List.filter_eq_nil_iff.mpr]
    intro b hb
    rw [mem_distinct] at hb
    simp [hrest b hb]

end YangScript.Text
