/-!
# Lists kept in key order

Every item carries its own key. Insertion walks to the place of the key and replaces the item
that holds it, so that a list built by insertion is strictly increasing in its keys and a key
occurs once. What a look-up finds after an insertion is stated below.
-/

set_option autoImplicit false

namespace YangScript.Keyed

variable {α κ : Type} [LT κ] [DecidableRel (α := κ) (· < ·)] [DecidableEq κ]

def insert (key : α → κ) (a : α) : List α → List α
  | [] => [a]
  | b :: rest =>
    if key a < key b then a :: b :: rest
    else if key a = key b then a :: rest
    else b :: insert key a rest

omit [LT κ] [DecidableRel (α := κ) (· < ·)] in
def find? (key : α → κ) (k : κ) (items : List α) : Option α :=
  items.find? (fun b => decide (key b = k))

theorem find?_insert_self (key : α → κ) (a : α) (items : List α) :
    find? key (key a) (insert key a items) = some a := by
  induction items with
  | nil => simp [find?, insert]
  | cons b rest ih =>
    rw [insert]
    split
    · simp [find?]
    · split
      · simp [find?]
      · rename_i heq
        have hne : ¬ key b = key a := fun h => heq h.symm
        simpa [find?, hne] using ih

theorem find?_insert_ne (key : α → κ) (k : κ) (a : α) (items : List α) (h : k ≠ key a) :
    find? key k (insert key a items) = find? key k items := by
  have hak : ¬ key a = k := fun e => h e.symm
  induction items with
  | nil => simp [find?, insert, hak]
  | cons b rest ih =>
    rw [insert]
    split
    · simp [find?, hak]
    · split
      · rename_i heq
        have hbk : ¬ key b = k := fun e => hak (heq.trans e)
        simp [find?, hak, hbk]
      · by_cases hbk : key b = k
        · simp [find?, hbk]
        · simpa [find?, hbk] using ih

theorem mem_insert (key : α → κ) (a x : α) (items : List α) (h : x ∈ insert key a items) :
    x = a ∨ x ∈ items := by
  induction items with
  | nil => simpa [insert] using h
  | cons b rest ih =>
    rw [insert] at h
    split at h
    · simpa using h
    · split at h
      · rcases List.mem_cons.mp h with rfl | h
        · exact Or.inl rfl
        · exact Or.inr (List.mem_cons_of_mem b h)
      · rcases List.mem_cons.mp h with rfl | h
        · exact Or.inr List.mem_cons_self
        · exact (ih h).imp id (List.mem_cons_of_mem b)

/-- The keys are strictly increasing. -/
def Sorted (key : α → κ) (items : List α) : Prop :=
  items.Pairwise (fun a b => key a < key b)

omit [DecidableRel (α := κ) (· < ·)] [DecidableEq κ] in
theorem sorted_nil (key : α → κ) : Sorted key [] := List.Pairwise.nil

theorem sorted_insert [Std.Trichotomous (α := κ) (· < ·)]
    [Trans (α := κ) (· < ·) (· < ·) (· < ·)] (key : α → κ) (a : α) (items : List α)
    (h : Sorted key items) : Sorted key (insert key a items) := by
  induction items with
  | nil => exact List.pairwise_singleton _ a
  | cons b rest ih =>
    obtain ⟨hb, hrest⟩ := List.pairwise_cons.mp h
    rw [insert]
    split
    · rename_i hlt
      refine List.pairwise_cons.mpr ⟨fun c hc => ?_, h⟩
      rcases List.mem_cons.mp hc with rfl | hc
      · exact hlt
      · exact Trans.trans hlt (hb c hc)
    · rename_i hnlt
      split
      · rename_i heq
        exact List.pairwise_cons.mpr ⟨fun c hc => heq ▸ hb c hc, hrest⟩
      · rename_i hne
        have hba : key b < key a := by
          refine Decidable.byContradiction fun hnba => hne ?_
          exact Std.Trichotomous.trichotomous (key a) (key b) hnlt hnba
        refine List.pairwise_cons.mpr ⟨fun c hc => ?_, ih hrest⟩
        rcases mem_insert key a c rest hc with rfl | hc
        · exact hba
        · exact hb c hc

theorem perm_insert (key : α → κ) (a : α) (items : List α) (h : key a ∉ items.map key) :
    (insert key a items).Perm (a :: items) := by
  induction items with
  | nil => exact List.Perm.refl _
  | cons b rest ih =>
    rw [List.map_cons, List.mem_cons, not_or] at h
    rw [insert]
    split
    · exact List.Perm.refl _
    · rw [if_neg h.1]
      exact ((ih h.2).cons b).trans (List.Perm.swap a b rest)

omit [DecidableRel (α := κ) (· < ·)] [DecidableEq κ] in
theorem Sorted.nodup [Std.Irrefl (α := κ) (· < ·)] {key : α → κ} {items : List α}
    (h : Sorted key items) : (items.map key).Nodup := by
  refine List.pairwise_map.mpr (h.imp fun {a b} hlt heq => ?_)
  rw [heq] at hlt
  exact Std.Irrefl.irrefl _ hlt

omit [DecidableRel (α := κ) (· < ·)] in
/-- In a list without repeated keys, an item is what its key finds. -/
theorem mem_iff_find? [Std.Irrefl (α := κ) (· < ·)] {key : α → κ} {items : List α}
    (h : Sorted key items) {a : α} : a ∈ items ↔ find? key (key a) items = some a := by
  constructor
  · intro ha
    induction items with
    | nil => simp at ha
    | cons b rest ih =>
      have hnodup := h.nodup
      rw [List.map_cons, List.nodup_cons] at hnodup
      rcases List.mem_cons.mp ha with rfl | ha
      · simp [find?]
      · have hne : ¬ key b = key a := fun he => hnodup.1 (he ▸ List.mem_map_of_mem ha)
        simpa [find?, hne] using ih (List.pairwise_cons.mp h).2 ha
  · exact List.mem_of_find?_eq_some

/-- An item that is there already is put in its own place. -/
theorem insert_eq_self [Std.Irrefl (α := κ) (· < ·)] [Trans (α := κ) (· < ·) (· < ·) (· < ·)]
    {key : α → κ} {a : α} {items : List α} (h : Sorted key items) (ha : a ∈ items) :
    insert key a items = items := by
  induction items with
  | nil => simp at ha
  | cons b rest ih =>
    obtain ⟨hb, hrest⟩ := List.pairwise_cons.mp h
    rw [insert]
    rcases List.mem_cons.mp ha with rfl | ha
    · rw [if_neg (Std.Irrefl.irrefl _), if_pos rfl]
    · have hlt := hb a ha
      have hne : ¬ key a = key b := fun he => Std.Irrefl.irrefl _ (he ▸ hlt)
      have hnlt : ¬ key a < key b := fun h => Std.Irrefl.irrefl _ (Trans.trans hlt h)
      rw [if_neg hnlt, if_neg hne, ih hrest ha]

section

variable [Std.Irrefl (α := κ) (· < ·)] [Trans (α := κ) (· < ·) (· < ·) (· < ·)] {key : α → κ}
  {items items' : List α}

omit [DecidableRel (α := κ) (· < ·)] [DecidableEq κ]

/-- Some items can be sorted in one way only. -/
theorem Sorted.eq_of_perm (h : Sorted key items) (h' : Sorted key items')
    (hp : items.Perm items') : items = items' := by
  refine hp.eq_of_pairwise (fun a b _ _ hab hba => ?_) h h'
  exact absurd (Trans.trans hab hba) (Std.Irrefl.irrefl _)

theorem Sorted.eq_of_mem_iff (h : Sorted key items) (h' : Sorted key items')
    (hmem : ∀ a, a ∈ items ↔ a ∈ items') : items = items' := by
  have hne : ∀ {l : List α}, Sorted key l → l.Nodup := fun hl =>
    (List.pairwise_map.mp hl.nodup).imp fun hkey hitem => hkey (congrArg key hitem)
  exact h.eq_of_perm h' ((List.perm_ext_iff_of_nodup (hne h) (hne h')).mpr hmem)

end

theorem perm_foldl_insert (key : α → κ) (es items : List α)
    (h : ((es ++ items).map key).Nodup) :
    (es.foldl (fun items a => insert key a items) items).Perm (es ++ items) := by
  induction es generalizing items with
  | nil => exact List.Perm.refl _
  | cons a es ih =>
    rw [List.cons_append, List.map_cons, List.nodup_cons, List.map_append, List.mem_append,
      not_or] at h
    have hperm := perm_insert key a items h.1.2
    have hmiddle : (es ++ insert key a items).Perm (a :: (es ++ items)) :=
      (hperm.append_left es).trans List.perm_middle
    refine (ih (insert key a items) ?_).trans hmiddle
    rw [(hmiddle.map key).nodup_iff, List.map_cons, List.nodup_cons, List.map_append,
      List.mem_append, not_or]
    exact h

/-- Items inserted in any order make the one list that keeps them in the order of their keys. -/
theorem foldl_insert_of_perm [Std.Trichotomous (α := κ) (· < ·)] [Std.Irrefl (α := κ) (· < ·)]
    [Trans (α := κ) (· < ·) (· < ·) (· < ·)] {key : α → κ} {es items : List α}
    (h : Sorted key items) (hp : es.Perm items) :
    es.foldl (fun items a => insert key a items) [] = items := by
  have hnodup : ((es ++ []).map key).Nodup := by
    rw [List.append_nil, (hp.map key).nodup_iff]
    exact h.nodup
  have hperm := perm_foldl_insert key es [] hnodup
  rw [List.append_nil] at hperm
  have hsorted : ∀ (es items : List α), Sorted key items →
      Sorted key (es.foldl (fun items a => insert key a items) items) := by
    intro es
    induction es with
    | nil => exact fun items hi => hi
    | cons a es ih => exact fun items hi => ih _ (sorted_insert key a items hi)
  exact (hsorted es [] (sorted_nil key)).eq_of_perm h (hperm.trans hp)

/-- The items in the order of their keys; items of one key stay as they stand. -/
def sort (key : α → κ) (items : List α) : List α :=
  items.mergeSort (fun a b => decide (¬ key b < key a))

omit [DecidableEq κ] in
theorem mem_sort (key : α → κ) (a : α) (items : List α) : a ∈ sort key items ↔ a ∈ items :=
  List.mem_mergeSort

omit [DecidableEq κ] in
/-- Items without repeated keys are sorted strictly. -/
theorem sorted_sort [Std.Trichotomous (α := κ) (· < ·)] [Std.Irrefl (α := κ) (· < ·)]
    [Trans (α := κ) (· < ·) (· < ·) (· < ·)] {key : α → κ} {items : List α}
    (h : (items.map key).Nodup) : Sorted key (sort key items) := by
  have hlt : ∀ {a b : α}, ¬ key b < key a → key a ≠ key b → key a < key b := by
    intro a b hnot hne
    refine Decidable.byContradiction fun hlt => hne ?_
    exact Std.Trichotomous.trichotomous (key a) (key b) hlt hnot
  have htrans : ∀ a b c : α, ¬ key b < key a → ¬ key c < key b → ¬ key c < key a := by
    intro a b c hab hbc hca
    by_cases heq : key a = key b
    · exact hbc (heq ▸ hca)
    · exact hbc (Trans.trans hca (hlt hab heq))
  have htotal : ∀ a b : α, ¬ key b < key a ∨ ¬ key a < key b := by
    intro a b
    by_cases hba : key b < key a
    · exact Or.inr fun hab => Std.Irrefl.irrefl _ (Trans.trans hab hba)
    · exact Or.inl hba
  have hpairs : (sort key items).Pairwise (fun a b => decide (¬ key b < key a) = true) :=
    List.pairwise_mergeSort (fun a b c => by simpa using htrans a b c)
      (fun a b => by simpa using htotal a b) items
  have hperm := (List.mergeSort_perm items (fun a b => decide (¬ key b < key a))).map key
  have hne := List.pairwise_map.mp (hperm.nodup_iff.mpr h)
  exact (hpairs.and hne).imp fun hab => hlt (of_decide_eq_true hab.1) hab.2

end YangScript.Keyed
