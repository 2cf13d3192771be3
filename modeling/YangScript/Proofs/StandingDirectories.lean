import YangScript.Proofs.NewDirectories

/-!
# Making directories a second time

Where making the directory at a path succeeds, the names of the path lead to a directory. And where
they lead to a directory, making it again succeeds and changes nothing, since what is in the way of
making it is forgiven.
-/

set_option autoImplicit false

namespace YangScript.FileTree

variable {t : FileTree} {base loc : Location} {names : List String}

/-- A walk to a directory does not end before it asks for one. -/
theorem walk_here (h : t.walk base names = .ok loc) (hdirectory : t.isDirectory loc = true) :
    t.walk base (names ++ ["."]) = .ok loc := by
  induction names generalizing base with
  | nil => exact h
  | cons name names ih =>
    obtain ⟨next, henters, hnext⟩ := exists_enters (Or.inr hdirectory) h
    rw [List.cons_append, henters.walk_eq]
    exact ih hnext

theorem walk_of_here (h : t.walk base (names ++ ["."]) = .ok loc) : t.walk base names = .ok loc := by
  have hend := walk_append h []
  rw [List.append_nil] at hend
  exact hend

/-- A walk that goes on has come to a directory. -/
theorem exists_walk_split {more : List String} (hne : more ≠ [])
    (h : t.walk base (names ++ more) = .ok loc) :
    ∃ around, t.walk base (names ++ ["."]) = .ok around ∧ t.walk around more = .ok loc := by
  induction names generalizing base with
  | nil => exact ⟨base, rfl, h⟩
  | cons name names ih =>
    obtain ⟨next, henters, hnext⟩ := exists_enters (Or.inl (by simp [hne])) h
    obtain ⟨around, haround, hmore⟩ := ih hnext
    exact ⟨around, by rw [List.cons_append, henters.walk_eq, haround], hmore⟩

/-! ## Directories that are there -/

section

variable (hwalk : t.walk base (names ++ ["."]) = .ok loc) (hdirectory : t.isDirectory loc = true)

include hwalk hdirectory

theorem makeDir_standing : t.makeDir base names = ⟨.error .alreadyExists, t⟩ := by
  rw [makeDir]
  rcases List.eq_nil_or_concat names with rfl | ⟨front, name, rfl⟩
  · rfl
  · rw [List.concat_eq_append, List.append_assoc] at hwalk
    obtain ⟨around, haround, hname⟩ := exists_walk_split (by simp) hwalk
    obtain ⟨next, henters, hnext⟩ := exists_enters (Or.inl (by simp)) hname
    obtain rfl : next = loc := Except.ok.inj hnext
    rw [List.concat_eq_append, newPlace, List.getLast?_concat, List.dropLast_concat, haround]
    cases henters with
    | here => rfl
    | up => rfl
    | down ordinary short directory =>
      have hfound := (isDirectory_iff t _).mp hdirectory
      simp [ordinary.1, ordinary.2, short, hfound]

theorem forgive_standing (e : IoError) : forgive base names ⟨.error e, t⟩ = ⟨.ok (), t⟩ := by
  simp only [forgive, walk_of_here hwalk, hdirectory, if_true]

theorem ensureDir_standing (above : FileTree → Change) :
    ensureDir base names above t = ⟨.ok (), t⟩ := by
  rw [ensureDir, makeDir_standing hwalk hdirectory]
  exact forgive_standing hwalk hdirectory _

end

theorem ensureDirs_standing (hwalk : t.walk base (names.reverse ++ ["."]) = .ok loc)
    (hdirectory : t.isDirectory loc = true) : ensureDirs base names t = ⟨.ok (), t⟩ := by
  cases names with
  | nil => exact ensureDir_standing hwalk hdirectory _
  | cons name above => exact ensureDir_standing hwalk hdirectory _

/-- Making a directory that is there succeeds and changes nothing. -/
theorem makeDirs_standing {path : String} (hallowed : Path.refusal? path = none)
    (hwalk : t.walk (origin base path) (Path.names path ++ ["."]) = .ok loc)
    (hdirectory : t.isDirectory loc = true) : t.makeDirs base path = ⟨.ok (), t⟩ := by
  rw [← walk_filter_here] at hwalk
  rw [makeDirs, hallowed]
  dsimp only
  split
  · exact ensureDir_standing (walk_here hwalk hdirectory) hdirectory _
  · rw [← List.reverse_reverse (List.filter _ _)] at hwalk
    exact ensureDirs_standing hwalk hdirectory

/-! ## Directories that were made -/

/-- The names lead to a directory of the tree that a change leaves. -/
def Change.Reaches (base : Location) (names : List String) (c : Change) : Prop :=
  ∃ loc, c.tree.walk base (names ++ ["."]) = .ok loc ∧ c.tree.isDirectory loc = true

theorem reaches_forgive_makeDir (h : (forgive base names (t.makeDir base names)).result = .ok ()) :
    (forgive base names (t.makeDir base names)).Reaches base names := by
  rw [Change.Reaches, tree_forgive]
  cases hmade : (t.makeDir base names).result with
  | ok u =>
    rw [makeDir] at hmade ⊢
    cases hplace : t.newPlace base names .alreadyExists with
    | error e => simp [hplace] at hmade
    | ok place =>
      cases hfound : t.find? place with
      | some item => simp [hplace, hfound] at hmade
      | none =>
        simp only [hfound]
        obtain ⟨front, name, around, -, -, -, -, hne⟩ := exists_of_newPlace hplace
        refine ⟨place, walk_put_directory hplace hfound, ?_⟩
        rw [isDirectory_iff, find?_put_self t place _ (by simp [hne])]
  | error e =>
    rw [forgive, hmade] at h
    dsimp only at h
    split at h
    · exact absurd h (by simp)
    · rename_i loc hwalk
      split at h
      · rename_i hdirectory
        exact ⟨loc, walk_here hwalk hdirectory, hdirectory⟩
      · exact absurd h (by simp)

theorem reaches_ensureDir {above : FileTree → Change}
    (h : (ensureDir base names above t).result = .ok ()) :
    (ensureDir base names above t).Reaches base names := by
  unfold ensureDir at h ⊢
  dsimp only at h ⊢
  split at h
  · split at h
    · rename_i e he
      exact absurd (he.symm.trans h) (by simp)
    · exact reaches_forgive_makeDir h
  · exact reaches_forgive_makeDir h

theorem reaches_ensureDirs (h : (ensureDirs base names t).result = .ok ()) :
    (ensureDirs base names t).Reaches base names.reverse := by
  cases names with
  | nil => exact reaches_ensureDir h
  | cons name above => exact reaches_ensureDir h

/-- Where making a directory succeeds, its path is allowed and leads to a directory. -/
theorem reaches_makeDirs {path : String} (h : (t.makeDirs base path).result = .ok ()) :
    Path.refusal? path = none ∧
      (t.makeDirs base path).Reaches (origin base path) (Path.names path) := by
  rw [makeDirs] at h ⊢
  cases hallowed : Path.refusal? path with
  | some e => simp [hallowed] at h
  | none =>
    rw [hallowed] at h
    dsimp only at h ⊢
    refine ⟨rfl, ?_⟩
    generalize Path.names path = names at h ⊢
    split at h
    · rename_i hlast
      rw [if_pos hlast]
      obtain ⟨loc, hwalk, hdirectory⟩ := reaches_ensureDir h
      have hreal := walk_of_here hwalk
      rw [walk_filter_here] at hreal
      exact ⟨loc, hreal, hdirectory⟩
    · rename_i hlast
      rw [if_neg hlast]
      obtain ⟨loc, hwalk, hdirectory⟩ := reaches_ensureDirs h
      rw [List.reverse_reverse, walk_filter_here] at hwalk
      exact ⟨loc, hwalk, hdirectory⟩

end YangScript.FileTree
