import YangScript.Proofs.OutputDirectory

/-!
# What making directories changes

Making the directory at a path puts directories where nothing was, at locations that the names of
the path lead through, and changes nothing else. This holds as well where it fails half-way.
-/

set_option autoImplicit false

namespace YangScript

namespace FileTree

theorem walk_filter_here (t : FileTree) (base : Location) (names : List String) :
    t.walk base (names.filter (fun name => name != ".") ++ ["."]) =
      t.walk base (names ++ ["."]) := by
  induction names generalizing base with
  | nil => rfl
  | cons name names ih =>
    by_cases hhere : name = "."
    · subst hhere
      exact ih base
    · rw [List.filter_cons_of_pos (by simpa using hhere), List.cons_append, List.cons_append, walk,
        walk]
      simp [ih]

/-- A location that the first of some names lead to, from directory to directory. -/
def OnTheWay (t : FileTree) (base : Location) (names : List String) (loc : Location) : Prop :=
  ∃ front, front <+: names ∧ t.walk base (front ++ ["."]) = .ok loc

section

variable {t t' : FileTree} {base loc : Location} {names more : List String}

theorem OnTheWay.mono (h : OnTheWay t base names loc) (hp : names <+: more) :
    OnTheWay t base more loc := by
  obtain ⟨front, hfront, hwalk⟩ := h
  exact ⟨front, hfront.trans hp, hwalk⟩

theorem OnTheWay.kept (h : OnTheWay t base names loc) (hkeeps : KeepsDirectories t t') :
    OnTheWay t' base names loc := by
  obtain ⟨front, hfront, hwalk⟩ := h
  exact ⟨front, hfront, walk_kept hkeeps hwalk⟩

/-- The name `.` leads nowhere else. -/
theorem onTheWay_filter_iff :
    OnTheWay t base (names.filter (fun name => name != ".")) loc ↔ OnTheWay t base names loc := by
  constructor
  · rintro ⟨front, hfront, hwalk⟩
    obtain ⟨whole, hwhole, rfl⟩ := List.prefix_filter_iff.mp hfront
    exact ⟨whole, hwhole, by rw [← hwalk, walk_filter_here]⟩
  · rintro ⟨front, hfront, hwalk⟩
    exact ⟨_, hfront.filter _, by rw [walk_filter_here, hwalk]⟩

end

/-- The one tree is the other with new directories along some names. -/
def MadeAlong (base : Location) (names : List String) (t t' : FileTree) : Prop :=
  ∀ loc, t'.find? loc = t.find? loc ∨
    t.find? loc = none ∧ t'.find? loc = some .directory ∧ OnTheWay t' base names loc

namespace MadeAlong

variable {t t' t'' : FileTree} {base : Location} {names more : List String}

theorem refl (base : Location) (names : List String) (t : FileTree) : MadeAlong base names t t :=
  fun _ => Or.inl rfl

theorem keeps (h : MadeAlong base names t t') : KeepsDirectories t t' := by
  intro loc hloc
  rw [isDirectory_iff] at hloc ⊢
  rcases h loc with hsame | ⟨hnone, -⟩
  · rw [hsame, hloc]
  · rw [hnone] at hloc
    exact absurd hloc (by simp)

theorem trans (h : MadeAlong base names t t') (h' : MadeAlong base names t' t'') :
    MadeAlong base names t t'' := by
  intro loc
  rcases h' loc with hsame' | ⟨hnone', hnew', hway'⟩
  · rw [hsame']
    exact (h loc).imp id fun ⟨hnone, hnew, hway⟩ => ⟨hnone, hnew, hway.kept h'.keeps⟩
  · rcases h loc with hsame | ⟨-, hnew, -⟩
    · exact Or.inr ⟨hsame ▸ hnone', hnew', hway'⟩
    · rw [hnone'] at hnew
      exact absurd hnew (by simp)

theorem mono (h : MadeAlong base names t t')
    (hway : ∀ loc, OnTheWay t' base names loc → OnTheWay t' base more loc) :
    MadeAlong base more t t' :=
  fun loc => (h loc).imp id fun ⟨hnone, hnew, hloc⟩ => ⟨hnone, hnew, hway loc hloc⟩

end MadeAlong

section

variable {t : FileTree} {base : Location} {names : List String}

theorem exists_of_newPlace {taken : IoError} {place : Location}
    (h : t.newPlace base names taken = .ok place) :
    ∃ front name around, names = front ++ [name] ∧ (name ≠ "." ∧ name ≠ "..") ∧
      Path.isTooLong name = false ∧ t.walk base (front ++ ["."]) = .ok around ∧
      place = around ++ [name] := by
  rcases List.eq_nil_or_concat names with rfl | ⟨front, name, rfl⟩
  · exact absurd h (by simp [newPlace])
  · rw [List.concat_eq_append] at h ⊢
    rw [newPlace, List.getLast?_concat, List.dropLast_concat] at h
    cases hw : t.walk base (front ++ ["."]) with
    | error e => simp [hw] at h
    | ok around =>
      simp only [hw] at h
      split at h
      · exact absurd h (by simp)
      · rename_i hname
        split at h
        · exact absurd h (by simp)
        · rename_i hshort
          refine ⟨front, name, around, rfl, ?_, by simpa using hshort, hw, ?_⟩
          · simpa using hname
          · exact (Except.ok.inj h).symm

/-- A directory put at a new place is the one that the names lead to. -/
theorem walk_put_directory {taken : IoError} {place : Location}
    (h : t.newPlace base names taken = .ok place) (hnone : t.find? place = none) :
    (t.put place .directory).walk base (names ++ ["."]) = .ok place := by
  obtain ⟨front, name, around, rfl, hname, hshort, hw, rfl⟩ := exists_of_newPlace h
  have hkeeps : KeepsDirectories t (t.put (around ++ [name]) .directory) := by
    intro loc hloc
    rw [isDirectory_iff] at hloc ⊢
    rw [find?_put_ne _ _ _ _ (by rintro rfl; simp [hnone] at hloc), hloc]
  have hfound := find?_put_self t (around ++ [name]) .directory (by simp)
  rw [List.append_assoc, walk_append (walk_kept hkeeps hw)]
  simp [walk, hname, hshort, hfound]

theorem madeAlong_makeDir (t : FileTree) (base : Location) (names : List String) :
    MadeAlong base names t (t.makeDir base names).tree := by
  rw [makeDir]
  cases hplace : t.newPlace base names .alreadyExists with
  | error e => exact .refl base names t
  | ok place =>
    cases hfound : t.find? place with
    | some item =>
      simp only [hfound]
      exact .refl base names t
    | none =>
      simp only [hfound]
      intro loc
      by_cases hloc : loc = place
      · subst hloc
        obtain ⟨front, name, around, -, -, -, -, hne⟩ := exists_of_newPlace hplace
        refine Or.inr ⟨hfound, find?_put_self t loc _ (by simp [hne]), names, List.prefix_refl _, ?_⟩
        exact walk_put_directory hplace hfound
      · exact Or.inl (find?_put_ne t place loc _ hloc)

theorem tree_forgive (base : Location) (names : List String) (c : Change) :
    (forgive base names c).tree = c.tree := by
  rw [forgive]
  split
  · rfl
  · split
    · rfl
    · split <;> rfl

theorem madeAlong_ensureDir {above : FileTree → Change}
    (habove : MadeAlong base names t (above t).tree) :
    MadeAlong base names t (ensureDir base names above t).tree := by
  unfold ensureDir
  dsimp only
  split
  · split
    · exact habove
    · rw [tree_forgive]
      exact habove.trans (madeAlong_makeDir _ base names)
  · rw [tree_forgive]
    exact madeAlong_makeDir t base names

/-- The names stand last first. -/
theorem madeAlong_ensureDirs (base : Location) (names : List String) (t : FileTree) :
    MadeAlong base names.reverse t (ensureDirs base names t).tree := by
  induction names generalizing t with
  | nil => exact madeAlong_ensureDir (.refl base [] t)
  | cons name above ih =>
    refine madeAlong_ensureDir ((ih t).mono fun loc hway => hway.mono ?_)
    rw [List.reverse_cons]
    exact List.prefix_append _ _

theorem madeAlong_makeDirs (t : FileTree) (base : Location) (path : String) :
    MadeAlong (origin base path) (Path.names path) t (t.makeDirs base path).tree := by
  rw [makeDirs]
  cases Path.refusal? path with
  | some e => exact .refl _ _ t
  | none =>
    dsimp only
    generalize Path.names path = names
    have hfilter : (names.filter (fun name => name != ".")).filter (fun name => name != ".") =
        names.filter (fun name => name != ".") := by simp
    split
    · -- the directory at `.` is never new, so what is made lies on the way of the other names
      have habove := madeAlong_ensureDirs (origin base path)
        (names.filter (fun name => name != ".")).dropLast.reverse t
      rw [List.reverse_reverse] at habove
      have hprefix : (names.filter (fun name => name != ".")).dropLast <+:
          names.filter (fun name => name != ".") ++ ["."] :=
        (List.dropLast_prefix _).trans (List.prefix_append _ _)
      have hmade := madeAlong_ensureDir (habove.mono fun loc hway => hway.mono hprefix)
      refine hmade.mono fun loc hway => ?_
      rw [← onTheWay_filter_iff, List.filter_append, hfilter] at hway
      exact onTheWay_filter_iff.mp (by simpa using hway)
    · have hmade := madeAlong_ensureDirs (origin base path)
        (names.filter (fun name => name != ".")).reverse t
      rw [List.reverse_reverse] at hmade
      exact hmade.mono fun loc hway => onTheWay_filter_iff.mp hway

end

end FileTree

end YangScript
