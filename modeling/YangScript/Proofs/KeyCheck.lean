import YangScript.Proofs.Construction
import YangScript.Proofs.UntypedLeaves

/-!
# What the check of keys reports

The check of keys goes through all entries, whatever they are and whatever stands around them, and
stops at the first directory whose key has a word that names no child. In a module whose entries
stand in the order of their names, as they do in every module that can be made, the entries are
passed in the order of the names on the way to them; an entry comes before what is below it. So
what is reported is the least of all offenders in that order, by the names that lead to it.
-/

set_option autoImplicit false

namespace YangScript

/-- The names on the way to the entry, its own at the end. -/
def Line.names (l : Line) : List String := l.chain.map Entry.name

namespace Entry

def NamesChild (e : Entry) (word : String) : Prop := ∃ child ∈ e.children, child.name = word

/-- If the entry is a directory, every word of its key is the name of one of its children. -/
def KeyNamesChildren (e : Entry) : Prop :=
  e.kind = .directory → ∀ word ∈ e.keyWords, e.NamesChild word

theorem isNone_child?_iff (e : Entry) (word : String) :
    (e.child? word).isNone = true ↔ ¬ e.NamesChild word := by
  rw [Option.isNone_iff_eq_none, child?, Keyed.find?, List.find?_eq_none]
  simp [NamesChild]

theorem strayKey?_eq_none_iff (e : Entry) : e.strayKey? = none ↔ e.KeyNamesChildren := by
  rw [strayKey?, KeyNamesChildren]
  split
  · rename_i hkind
    rw [List.find?_eq_none]
    simp only [isNone_child?_iff, Classical.not_not, hkind, forall_const]
  · rename_i hkind
    exact iff_of_true rfl fun h => absurd h hkind

theorem keyWords_of_strayKey? {e : Entry} {word : String} (h : e.strayKey? = some word) :
    e.kind = .directory ∧ ¬ e.NamesChild word ∧
      ∃ before after, e.keyWords = before ++ word :: after ∧ ∀ w ∈ before, e.NamesChild w := by
  rw [strayKey?] at h
  split at h
  · rename_i hkind
    obtain ⟨hword, before, after, hcut, hbefore⟩ := List.find?_eq_some_iff_append.mp h
    refine ⟨hkind, (e.isNone_child?_iff word).mp hword, before, after, hcut, fun w hw => ?_⟩
    have hsome := hbefore w hw
    rw [Bool.not_eq_true', ← Bool.not_eq_true, isNone_child?_iff, Classical.not_not] at hsome
    exact hsome
  · exact absurd h (by simp)

end Entry

/-! ## The check goes along the lines -/

theorem chainPath_eq_join (owner : String) (chain : List Entry) :
    chainPath owner chain = Text.join "/" (owner :: chain.map Entry.name) := by
  induction chain generalizing owner with
  | nil => rfl
  | cons e chain ih =>
    rw [List.map_cons, Text.join_cons_cons]
    exact ih (e.pathIn owner)

/-- What the check finds wrong with the entry itself, in the module `owner`. -/
def Line.fault? (owner : String) (l : Line) : Option KeyFault :=
  l.entry.strayKey?.map (fun word => ⟨Text.join "/" (owner :: l.names), word⟩)

/-- The answer of a check that has found this fault first, or none. -/
def verdict : Option KeyFault → Except KeyFault Unit
  | none => .ok ()
  | some f => .error f

namespace Entry

mutual

theorem validate_eq_lines (owner : String) (above : List Entry) : (e : Entry) →
    e.validate (chainPath owner above) = verdict ((e.lines above).findSome? (Line.fault? owner))
  | ⟨name, kind, mandatory, inputOnly, operation, repeated, key, description, leafType,
      children⟩ => by
    have hbelow := validateAll_eq_lines owner (above ++ [⟨name, kind, mandatory, inputOnly,
      operation, repeated, key, description, leafType, children⟩]) children
    rw [validate, lines, List.findSome?_cons, Line.fault?, Line.names, Line.chain,
      ← chainPath_eq_join]
    rw [chainPath_concat] at hbelow ⊢
    split
    · rename_i word hword
      rw [hword]
      rfl
    · rename_i hnone
      rw [hnone]
      exact hbelow

theorem validateAll_eq_lines (owner : String) (above : List Entry) : (es : List Entry) →
    validateAll (chainPath owner above) es =
      verdict ((linesAll above es).findSome? (Line.fault? owner))
  | [] => rfl
  | e :: es => by
    rw [validateAll, linesAll, List.findSome?_append, validate_eq_lines owner above e,
      validateAll_eq_lines owner above es]
    cases (e.lines above).findSome? (Line.fault? owner) <;> rfl

end

end Entry

theorem Module.validate_eq_lines (m : Module) :
    m.validate = verdict (m.lines.findSome? (Line.fault? m.name)) :=
  Entry.validateAll_eq_lines m.name [] m.entries

/-! ## The order of the lines -/

namespace Entry

/-- The names on the way to the entries above come first, then its own. -/
theorem names_of_mem_lines {above : List Entry} {e : Entry} {l : Line} (h : l ∈ e.lines above) :
    ∃ below, l.names = above.map Entry.name ++ e.name :: below := by
  cases e
  rw [lines] at h
  rcases List.mem_cons.mp h with rfl | h
  · exact ⟨[], by simp [Line.names, Line.chain]⟩
  · obtain ⟨between, hbetween⟩ := above_of_mem_linesAll _ _ l h
    exact ⟨(between ++ [l.entry]).map Entry.name, by simp [Line.names, Line.chain, ← hbetween]⟩

theorem exists_of_mem_linesAll {above : List Entry} {es : List Entry} {l : Line}
    (h : l ∈ linesAll above es) : ∃ e ∈ es, l ∈ e.lines above := by
  induction es with
  | nil => exact absurd h (by simp [linesAll])
  | cons e es ih =>
    rw [linesAll, List.mem_append] at h
    rcases h with h | h
    · exact ⟨e, List.mem_cons_self, h⟩
    · obtain ⟨e', he', hl⟩ := ih h
      exact ⟨e', List.mem_cons_of_mem e he', hl⟩

mutual

theorem sorted_lines (above : List Entry) : (e : Entry) → e.Ordered →
    Keyed.Sorted Line.names (e.lines above)
  | ⟨name, kind, mandatory, inputOnly, operation, repeated, key, description, leafType, children⟩,
      h => by
    have hbelow := sorted_linesAll (above ++ [⟨name, kind, mandatory, inputOnly, operation,
      repeated, key, description, leafType, children⟩]) children h.sorted h.each
    rw [lines, Keyed.Sorted, List.pairwise_cons]
    refine ⟨fun l hl => ?_, hbelow⟩
    obtain ⟨child, -, hchild⟩ := exists_of_mem_linesAll hl
    obtain ⟨below, hnames⟩ := names_of_mem_lines hchild
    have hlonger : above.map Entry.name ++ [name] ++ [] <
        above.map Entry.name ++ [name] ++ child.name :: below :=
      List.append_left_lt (List.nil_lt_cons _ _)
    rw [hnames]
    simpa [Line.names, Line.chain] using hlonger

theorem sorted_linesAll (above : List Entry) : (es : List Entry) →
    Keyed.Sorted Entry.name es → (∀ e ∈ es, e.Ordered) →
      Keyed.Sorted Line.names (linesAll above es)
  | [], _, _ => Keyed.sorted_nil Line.names
  | e :: es, hsorted, h => by
    obtain ⟨he, hes⟩ := List.forall_mem_cons.mp h
    obtain ⟨hfirst, hrest⟩ := List.pairwise_cons.mp hsorted
    rw [linesAll, Keyed.Sorted, List.pairwise_append]
    refine ⟨sorted_lines above e he, sorted_linesAll above es hrest hes, fun l hl l' hl' => ?_⟩
    obtain ⟨e', he', hmem⟩ := exists_of_mem_linesAll hl'
    obtain ⟨below, hnames⟩ := names_of_mem_lines hl
    obtain ⟨below', hnames'⟩ := names_of_mem_lines hmem
    rw [hnames, hnames']
    exact List.append_left_lt (List.cons_lt_cons_iff.mpr (Or.inl (hfirst e' he')))

end

end Entry

theorem Module.Ordered.sorted_lines {m : Module} (h : m.Ordered) :
    Keyed.Sorted Line.names m.lines :=
  Entry.sorted_linesAll [] m.entries h.sorted h.each

/-- Of a module that can be made, the entries are listed in the order of the names on the way to
them. It passes the check of keys if and only if in every directory, wherever it stands, each word
of the key is the name of a child. Otherwise the first directory in that order of which this is
not true is reported, with the first word of its key that names no child. -/
theorem validate_reports_first_stray_key {m : Module} (h : m.Built) :
    m.lines.Pairwise (fun l l' => l.names < l'.names) ∧
      (m.validate = .ok () ↔ ∀ l ∈ m.lines, l.entry.KeyNamesChildren) ∧
      ((∃ l ∈ m.lines, ¬ l.entry.KeyNamesChildren) →
        ∃ l ∈ m.lines, ∃ (before : List String) (word : String) (after : List String),
          (∀ l' ∈ m.lines, l'.names < l.names → l'.entry.KeyNamesChildren) ∧
          l.entry.kind = .directory ∧ l.entry.keyWords = before ++ word :: after ∧
          (∀ w ∈ before, l.entry.NamesChild w) ∧ ¬ l.entry.NamesChild word ∧
          m.validate = .error ⟨Text.join "/" (m.name :: l.names), word⟩) := by
  have hsorted := h.ordered.sorted_lines
  have hclean : ∀ l : Line, l.fault? m.name = none ↔ l.entry.KeyNamesChildren := by
    intro l
    rw [Line.fault?, Option.map_eq_none_iff, Entry.strayKey?_eq_none_iff]
  rw [m.validate_eq_lines]
  refine ⟨hsorted, ?_, ?_⟩
  · have hok : ∀ found, verdict found = .ok () ↔ found = none := by
      intro found
      cases found <;> simp [verdict]
    rw [hok, List.findSome?_eq_none_iff]
    simp only [hclean]
  · rintro ⟨l₀, hl₀, hstray⟩
    cases hfound : m.lines.findSome? (Line.fault? m.name) with
    | none =>
      rw [List.findSome?_eq_none_iff] at hfound
      exact absurd ((hclean l₀).mp (hfound l₀ hl₀)) hstray
    | some fault =>
      obtain ⟨earlier, l, later, hcut, hfault, hearlier⟩ := List.findSome?_eq_some_iff.mp hfound
      obtain ⟨word, hword, rfl⟩ := Option.map_eq_some_iff.mp hfault
      obtain ⟨hkind, hnot, before, after, hwords, hbefore⟩ := Entry.keyWords_of_strayKey? hword
      refine ⟨l, by simp [hcut], before, word, after, ?_, hkind, hwords, hbefore, hnot, rfl⟩
      -- A line of lesser names stands neither at the fault nor behind it.
      intro l' hl' hlt
      rw [Keyed.Sorted, hcut, List.pairwise_append, List.pairwise_cons] at hsorted
      rw [hcut, List.mem_append, List.mem_cons] at hl'
      rcases hl' with hl' | rfl | hl'
      · exact (hclean l').mp (hearlier l' hl')
      · exact absurd hlt (List.lt_irrefl _)
      · exact absurd hlt (List.lt_asymm (hsorted.2.1.1 l' hl'))

/-- A list below a choice, the second word of its key misspelt. -/
def misspeltModule : Module :=
  let vlan := { Entry.directory "vlan" with key := some "id nmae" }
  let named := (vlan.insert (Entry.leaf "id" (LeafType.ofKind .uint16))).insert
    (Entry.leaf "name" (LeafType.ofKind .string))
  (Module.ofName "m").insert ((Entry.ofKind "box" .choice).insert named)

theorem validate_reports_first_stray_key_misspeltModule :
    misspeltModule.Built ∧ (∃ l ∈ misspeltModule.lines, ¬ l.entry.KeyNamesChildren) ∧
      misspeltModule.validate = .error ⟨"m/box/vlan", "nmae"⟩ ∧
      ∃ l ∈ misspeltModule.lines, ∃ (before : List String) (word : String) (after : List String),
        (∀ l' ∈ misspeltModule.lines, l'.names < l.names → l'.entry.KeyNamesChildren) ∧
        l.entry.kind = .directory ∧ l.entry.keyWords = before ++ word :: after ∧
        (∀ w ∈ before, l.entry.NamesChild w) ∧ ¬ l.entry.NamesChild word ∧
        misspeltModule.validate =
          .error ⟨Text.join "/" (misspeltModule.name :: l.names), word⟩ := by
  have hbuilt : misspeltModule.Built :=
    .insert (.bare rfl)
      (.insert (.bare rfl) (.insert (.insert (.bare rfl) (.bare rfl)) (.bare rfl)))
  obtain ⟨-, -, hfirst⟩ := validate_reports_first_stray_key hbuilt
  have herror : misspeltModule.validate = .error ⟨"m/box/vlan", "nmae"⟩ := rfl
  have hstray : ∃ l ∈ misspeltModule.lines, ¬ l.entry.KeyNamesChildren := by
    have hsome : misspeltModule.lines.any (fun l => l.entry.strayKey?.isSome) = true := by decide
    obtain ⟨l, hl, hword⟩ := List.any_eq_true.mp hsome
    refine ⟨l, hl, fun hnames => ?_⟩
    rw [l.entry.strayKey?_eq_none_iff.mpr hnames] at hword
    exact absurd hword (by simp)
  exact ⟨hbuilt, hstray, herror, hfirst hstray⟩

end YangScript
