import YangScript.Proofs.FieldReading

/-!
# Names of the schema and names of the declarations

A name of the schema starts with a letter or an underscore and goes on with letters, digits,
underscores, hyphens and dots. An identifier of the declarations may hold dollar signs, but neither
hyphens nor dots. The letters and digits of both are those of ASCII: a schema has no others in its
names, and none but these are made of them.
-/

set_option autoImplicit false

namespace YangScript

/-- Whether a text starts with a character of one class and goes on with characters of another. -/
def isWord (first next : Char → Bool) : List Char → Bool
  | [] => false
  | c :: cs => first c && cs.all next

def isSchemaStart (c : Char) : Bool := c.isAlpha || c == '_'

def isSchemaName (name : String) : Bool := isWord isSchemaStart isFieldChar name.toList

def isIdentifierStart (c : Char) : Bool := isSchemaStart c || c == '$'

def isIdentifierPart (c : Char) : Bool := c.isAlphanum || c == '_' || c == '$'

def isIdentifier (name : String) : Bool :=
  isWord isIdentifierStart isIdentifierPart name.toList

theorem isIdentifierPart_of_start {c : Char} (h : isIdentifierStart c = true) :
    isIdentifierPart c = true := by
  simp only [isIdentifierStart, isSchemaStart, isIdentifierPart, Char.isAlphanum,
    Bool.or_eq_true] at h ⊢
  rcases h with (h | h) | h <;> simp [h]

theorem isFieldChar_of_start {c : Char} (h : isSchemaStart c = true) : isFieldChar c = true := by
  simp only [isSchemaStart, isFieldChar, Char.isAlphanum, Bool.or_eq_true] at h ⊢
  rcases h with h | h <;> simp [h]

/-- A start is a part too, so that no character need be set apart from the others. -/
theorem isWord_identifier_iff (cs : List Char) :
    isWord isIdentifierStart isIdentifierPart cs = true ↔
      (∃ c, cs.head? = some c ∧ isIdentifierStart c = true) ∧
        ∀ c ∈ cs, isIdentifierPart c = true := by
  cases cs with
  | nil => simp [isWord]
  | cons c cs =>
    rw [isWord, Bool.and_eq_true, List.all_eq_true, List.forall_mem_cons]
    constructor
    · rintro ⟨hc, hcs⟩
      exact ⟨⟨c, rfl, hc⟩, isIdentifierPart_of_start hc, hcs⟩
    · rintro ⟨⟨d, hd, hstart⟩, -, hcs⟩
      rw [← Option.some.inj hd] at hstart
      exact ⟨hstart, hcs⟩

/-- What is known of the characters of a name of the schema. -/
theorem exists_of_isSchemaName {name : String} (h : isSchemaName name = true) :
    ∃ c cs, name.toList = c :: cs ∧ isSchemaStart c = true ∧ ∀ d ∈ c :: cs, isFieldChar d = true := by
  rw [isSchemaName] at h
  cases hname : name.toList with
  | nil =>
    rw [hname] at h
    exact absurd h (by simp [isWord])
  | cons c cs =>
    rw [hname, isWord, Bool.and_eq_true, List.all_eq_true] at h
    exact ⟨c, cs, rfl, h.1, List.forall_mem_cons.mpr ⟨isFieldChar_of_start h.1, h.2⟩⟩

theorem isFieldChar_of_isSchemaName {name : String} (h : isSchemaName name = true) :
    ∀ c ∈ name.toList, isFieldChar c = true := by
  obtain ⟨c, cs, hname, -, hchars⟩ := exists_of_isSchemaName h
  rw [hname]
  exact hchars

theorem isIdentifierPart_iff {c : Char} (h : isFieldChar c = true) :
    isIdentifierPart c = true ↔ c ≠ '-' ∧ c ≠ '.' := by
  constructor
  · intro hpart
    constructor
    · rintro rfl
      exact absurd hpart (by decide)
    · rintro rfl
      exact absurd hpart (by decide)
  · rintro ⟨hhyphen, hdot⟩
    simp only [isFieldChar, Bool.or_eq_true, beq_iff_eq, hhyphen, hdot, or_false] at h
    rw [isIdentifierPart, Bool.or_eq_true, Bool.or_eq_true, beq_iff_eq, beq_iff_eq]
    exact Or.inl h

/-- A name of the schema is an identifier unless a hyphen or a dot is in it. -/
theorem isIdentifier_iff {name : String} (h : isSchemaName name = true) :
    isIdentifier name = true ↔ '-' ∉ name.toList ∧ '.' ∉ name.toList := by
  obtain ⟨c, cs, hname, hstart, hchars⟩ := exists_of_isSchemaName h
  rw [isIdentifier, isWord_identifier_iff, hname]
  constructor
  · rintro ⟨-, hparts⟩
    constructor
    · intro hmem
      exact absurd (hparts _ hmem) (by decide)
    · intro hmem
      exact absurd (hparts _ hmem) (by decide)
  · rintro ⟨hhyphen, hdot⟩
    constructor
    · exact ⟨c, rfl, by rw [isIdentifierStart, hstart, Bool.true_or]⟩
    · intro d hd
      rw [isIdentifierPart_iff (hchars d hd)]
      constructor
      · rintro rfl
        exact hhyphen hd
      · rintro rfl
        exact hdot hd

/-- Letters and digits stand in three ranges of ASCII. -/
theorem lt_of_isAlphanum {c : Char} (h : c.isAlphanum = true) : c.toNat < 128 := by
  have hranges : (decide (65 ≤ c.val ∧ c.val ≤ 90) ||
      decide (97 ≤ c.val) && decide (c.val ≤ 122) ||
      decide (48 ≤ c.val) && decide (c.val ≤ 57)) = true := h
  simp only [Bool.or_eq_true, Bool.and_eq_true, decide_eq_true_eq, UInt32.le_iff_toNat_le,
    UInt32.reduceToNat] at hranges
  have hcode : c.toNat = c.val.toNat := rfl
  omega

theorem lt_of_isFieldChar {c : Char} (h : isFieldChar c = true) : c.toNat < 128 := by
  simp only [isFieldChar, Bool.or_eq_true, beq_iff_eq] at h
  rcases h with ((h | rfl) | rfl) | rfl
  · exact lt_of_isAlphanum h
  all_goals decide

end YangScript
