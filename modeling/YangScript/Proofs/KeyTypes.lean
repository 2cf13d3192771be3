import YangScript.Output.Mapping

/-!
# Which child a key names

The check of a list cuts its key into words and looks for a child of each name. The record of the
list takes the key as it stands and looks for a child of that name. For a key of one word the two
mean the same child if the word stands alone. With white space around it the record is keyed by
text, or by a child whose name has the same white space in it.
-/

set_option autoImplicit false

namespace YangScript

namespace Entry

/-- The type of the child that bears the key as its name, white space included, or else text. -/
def wholeKeyType (strict : Bool) (e : Entry) : ScriptType :=
  match e.key.bind e.child? with
  | some child => child.scriptType strict
  | none => .string

/-- Among the fields that are made of some entries, a name finds what it finds among these. -/
theorem find?_scriptFields (strict : Bool) (name : String) (es : List Entry) :
    (scriptFields strict es).find? (fun f => name == f.name) =
      (Keyed.find? Entry.name name es).map
        (fun e => ⟨e.name, e.scriptType strict, !e.mandatory⟩) := by
  induction es with
  | nil => rfl
  | cons e es ih =>
    rw [Keyed.find?] at ih ⊢
    by_cases he : e.name = name
    · simp [scriptFields, he]
    · have hne : ¬ name = e.name := fun h => he h.symm
      simpa [scriptFields, he, hne] using ih

theorem keyType_children (strict : Bool) (e : Entry) :
    keyType e.key (scriptFields strict e.children) = e.wholeKeyType strict := by
  rw [keyType, wholeKeyType]
  cases e.key with
  | none =>
    have hnone : (scriptFields strict e.children).find?
        (fun f => (none : Option String) == some f.name) = none := by
      rw [List.find?_eq_none]
      intro f _
      simp
    rw [hnone]
    rfl
  | some name =>
    have hsome : ∀ f : Field ScriptType, (some name == some f.name) = (name == f.name) := by
      intro f
      rfl
    simp only [hsome, find?_scriptFields, Option.bind_some, child?]
    cases Keyed.find? Entry.name name e.children <;> rfl

/-- The record is keyed by text or by a child that bears the whole key, and by nothing else. -/
theorem wholeKeyType_eq_iff (strict : Bool) {e : Entry} {whole : String} (hkey : e.key = some whole)
    (t : ScriptType) :
    e.wholeKeyType strict = t ↔
      (e.child? whole = none ∧ t = .string) ∨
        ∃ other, e.child? whole = some other ∧ other.scriptType strict = t := by
  rw [wholeKeyType, hkey, Option.bind_some]
  cases e.child? whole with
  | none => simp [eq_comm]
  | some other => simp

theorem scriptType_directory (strict : Bool) {e : Entry} (h : e.kind = .directory) :
    e.scriptType strict = .record (e.wholeKeyType strict) (scriptFields strict e.children) := by
  rw [← keyType_children]
  obtain ⟨name, kind, mandatory, inputOnly, operation, repeated, key, description, leafType,
    children⟩ := e
  subst h
  rfl

/-- A list that passes the check has a child for each word of its key. -/
theorem exists_child_of_keyWord {e : Entry} (hkind : e.kind = .directory)
    (hcheck : e.strayKey? = none) {word : String} (hword : word ∈ e.keyWords) :
    ∃ child, e.child? word = some child := by
  rw [strayKey?, if_pos hkind, List.find?_eq_none] at hcheck
  have hfound := hcheck word hword
  rw [Option.isNone_iff_eq_none] at hfound
  exact Option.ne_none_iff_exists'.mp hfound

theorem exists_padded_key {e : Entry} {word : String} (h : e.keyWords = [word]) :
    ∃ (lead trail : List Char) (whole : String), e.key = some whole ∧
      whole = String.ofList lead ++ word ++ String.ofList trail ∧
      ∀ c ∈ lead ++ trail, Text.isWhiteSpace c = true := by
  rw [keyWords] at h
  cases hkey : e.key with
  | none =>
    rw [hkey] at h
    exact absurd h (by simp [Text.words, Text.segments])
  | some whole =>
    rw [hkey] at h
    obtain ⟨lead, trail, hwhole, hspace⟩ := Text.exists_padding_of_words Text.isWhiteSpace h
    exact ⟨lead, trail, whole, rfl, hwhole, hspace⟩

end Entry

/-- A list whose key is the one word `word` has a child of that name if it passes the check. The
record of the list is keyed by that child's type if the word stands in the key without white space
around it. Otherwise it is so by chance only: no child bears the key with its white space, and the
type of the child is text; or another child bears it, and has the same type. -/
theorem keyed_by_named_child_iff {e : Entry} {word : String} (strict : Bool)
    (hkind : e.kind = .directory) (hcheck : e.strayKey? = none) (hword : e.keyWords = [word]) :
    ∃ (child : Entry) (key : ScriptType) (lead trail : List Char) (whole : String),
      e.child? word = some child ∧
      e.scriptType strict = .record key (Entry.scriptFields strict e.children) ∧
      e.key = some whole ∧ whole = String.ofList lead ++ word ++ String.ofList trail ∧
      (∀ c ∈ lead ++ trail, Text.isWhiteSpace c = true) ∧
      (key = child.scriptType strict ↔
        lead ++ trail = [] ∨
        (e.child? whole = none ∧ child.scriptType strict = .string) ∨
        ∃ other, e.child? whole = some other ∧
          other.scriptType strict = child.scriptType strict) := by
  obtain ⟨child, hchild⟩ := Entry.exists_child_of_keyWord hkind hcheck
    (hword ▸ List.mem_singleton_self word)
  obtain ⟨lead, trail, whole, hkey, hwhole, hspace⟩ := Entry.exists_padded_key hword
  have hbare : lead ++ trail = [] → e.child? whole = some child := by
    intro hnil
    rw [List.append_eq_nil_iff] at hnil
    rw [hwhole, hnil.1, hnil.2]
    simpa using hchild
  refine ⟨child, e.wholeKeyType strict, lead, trail, whole, hchild,
    Entry.scriptType_directory strict hkind, hkey, hwhole, hspace, ?_⟩
  rw [Entry.wholeKeyType_eq_iff strict hkey]
  constructor
  · exact Or.inr
  · rintro (hnil | hchance)
    · exact Or.inr ⟨child, hbare hnil, rfl⟩
    · exact hchance

/-- A list of numbered entries, its key written with a space behind it. -/
def spacedList : Entry :=
  { Entry.directory "vlan" with
    key := some "id "
    children := [Entry.leaf "id" (LeafType.ofKind .uint16)] }

theorem keyed_by_named_child_iff_spacedList :
    spacedList.kind = .directory ∧ spacedList.strayKey? = none ∧ spacedList.keyWords = ["id"] ∧
      ∃ (child : Entry) (key : ScriptType) (lead trail : List Char) (whole : String),
        spacedList.child? "id" = some child ∧
        spacedList.scriptType true = .record key (Entry.scriptFields true spacedList.children) ∧
        spacedList.key = some whole ∧ whole = String.ofList lead ++ "id" ++ String.ofList trail ∧
        (∀ c ∈ lead ++ trail, Text.isWhiteSpace c = true) ∧
        (key = child.scriptType true ↔
          lead ++ trail = [] ∨
          (spacedList.child? whole = none ∧ child.scriptType true = .string) ∨
          ∃ other, spacedList.child? whole = some other ∧
            other.scriptType true = child.scriptType true) := by
  have hcheck : spacedList.strayKey? = none := by decide
  have hword : spacedList.keyWords = ["id"] := by decide
  exact ⟨rfl, hcheck, hword, keyed_by_named_child_iff true rfl hcheck hword⟩

/-- The check finds the child that the key names, and the record is keyed by text all the same. -/
theorem spaced_key_is_not_followed :
    spacedList.kind = .directory ∧ spacedList.strayKey? = none ∧ spacedList.keyWords = ["id"] ∧
      ∃ child, spacedList.child? "id" = some child ∧
        child.scriptType true = .primitive .number ∧
        spacedList.scriptType true =
          .record .string [⟨"id", .primitive .number, true⟩] ∧
        ScriptType.string ≠ child.scriptType true := by
  refine ⟨rfl, by decide, by decide, _, rfl, rfl, rfl, ?_⟩
  decide

end YangScript
