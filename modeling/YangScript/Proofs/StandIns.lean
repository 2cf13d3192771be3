import YangScript.Proofs.Strictness
import YangScript.Proofs.UntypedLeaves

/-!
# Where a stand-in is reached

The check speaks of leaves without a type. The walk gives the stand-in to these and to more: to leaf
references and scalars of an unknown kind, also where they are members of a union, and to every
entry that is neither a leaf nor a directory nor `anyxml`. Such entries are called vague here. The
three descriptions of a module without stand-ins agree: the walk finds nothing imprecise, it makes
no type that is the stand-in, and no entry that it comes to is vague or a leaf without a type.
-/

set_option autoImplicit false

namespace YangScript

def BaseKind.isVague : BaseKind → Bool
  | .leafRef => true
  | .unknown _ => true
  | _ => false

def EntryKind.isVague : EntryKind → Bool
  | .anyData => true
  | .choice => true
  | .case => true
  | .notification => true
  | _ => false

/-- The entry is of a vague kind, or a leaf whose type is vague or has vague members at some
depth. -/
def Entry.isVague (e : Entry) : Bool :=
  e.kind.isVague || decide (e.kind = .leaf) &&
    e.leafType.any (fun t => t.nested.any (fun u => u.kind.isVague))

namespace LeafType

mutual

theorem isPrecise_eq_nested : (t : LeafType) →
    t.isPrecise = !t.nested.any (fun u => u.kind.isVague)
  | ⟨_, kind, _, _, members, _⟩ => by
    cases kind
    case union => exact allPrecise_eq_nested members
    all_goals rfl

theorem allPrecise_eq_nested : (ts : List LeafType) →
    allPrecise ts = !(nestedAll ts).any (fun u => u.kind.isVague)
  | [] => rfl
  | t :: ts => by
    rw [allPrecise, nestedAll, List.any_append, Bool.not_or, isPrecise_eq_nested t,
      allPrecise_eq_nested ts]

end

theorem scriptType_eq_standIn_iff (strict : Bool) (t : LeafType) :
    t.scriptType strict = standIn strict ↔ t.kind.isVague = true := by
  obtain ⟨name, kind, values, bits, members, path⟩ := t
  have hprimitive : ∀ p : Primitive, p ≠ .unknown → p ≠ .any →
      ScriptType.primitive p ≠ standIn strict := by
    intro p hunknown hany
    cases strict <;> simpa [standIn, standInKeyword]
  cases kind
  case bits => simp [scriptType, standIn, BaseKind.isVague]
  case enumeration => simp [scriptType, ScriptType.ofLiterals, ScriptType.unionOf, standIn,
    BaseKind.isVague]
  case union => simp [scriptType, ScriptType.unionOf, standIn, BaseKind.isVague]
  case leafRef => exact iff_of_true rfl rfl
  case unknown => exact iff_of_true rfl rfl
  all_goals exact iff_of_false (hprimitive _ (by decide) (by decide)) (by simp [BaseKind.isVague])

/-- A type without stand-ins is one for which none is made, nor for any type nested in it. -/
theorem isPrecise_iff_nested_ne (strict : Bool) (t : LeafType) :
    t.isPrecise = true ↔ ∀ u ∈ t.nested, u.scriptType strict ≠ standIn strict := by
  rw [isPrecise_eq_nested, Bool.not_eq_true', List.any_eq_false]
  simp only [ne_eq, scriptType_eq_standIn_iff]

end LeafType

/-! ## The types that the walk makes -/

namespace Entry

mutual

theorem isPrecise_iff_made (strict : Bool) : (e : Entry) →
    (e.isPrecise = true ↔ ∀ t ∈ e.made strict, t ≠ standIn strict)
  | ⟨name, kind, mandatory, inputOnly, operation, repeated, key, description, leafType,
      children⟩ => by
    have hprimitive : ScriptType.string ≠ standIn strict := by cases strict <;> decide
    have hstandIn : ¬ ∀ t ∈ [standIn strict], t ≠ standIn strict := by simp
    cases kind
    case anyXml =>
      exact iff_of_true rfl (by simpa [made, scriptType] using hprimitive)
    case leaf =>
      cases leafType with
      | none =>
        refine iff_of_false (by simp [isPrecise]) fun h => ?_
        exact h (scalarType strict none) (by simp [made]) rfl
      | some t =>
        have hprecise := t.isPrecise_iff_nested_ne strict
        apply hprecise.trans
        simp only [made, Option.toList, List.flatMap_singleton, List.forall_mem_cons,
          List.forall_mem_map]
        -- The types of the leaf itself are the first of the nested ones, or an array.
        refine ⟨fun h => ⟨?_, h t t.mem_nested_self, h⟩, fun h => h.2.2⟩
        cases repeated with
        | true => simp [scriptType, standIn]
        | false => exact h t t.mem_nested_self
    case directory =>
      have hrecord : scriptType strict ⟨name, .directory, mandatory, inputOnly, operation, repeated,
          key, description, leafType, children⟩ ≠ standIn strict := by
        simp [scriptType, standIn]
      simp only [made, List.forall_mem_cons]
      exact (allPrecise_iff_made strict children).trans (and_iff_right hrecord).symm
    all_goals exact iff_of_false (by simp [isPrecise]) hstandIn

theorem allPrecise_iff_made (strict : Bool) : (es : List Entry) →
    (allPrecise es = true ↔ ∀ t ∈ madeAll strict es, t ≠ standIn strict)
  | [] => by simp [allPrecise, madeAll]
  | e :: es => by
    rw [allPrecise, Bool.and_eq_true, madeAll, List.forall_mem_append, isPrecise_iff_made strict e,
      allPrecise_iff_made strict es]

end

end Entry

/-! ## The entries that the walk comes to -/

namespace Entry

/-- What an entry calls for by itself that is no directory. -/
theorem isPrecise_eq_own {e : Entry} (h : e.kind ≠ .directory) :
    e.isPrecise = (!e.isVague && !e.isUntypedLeaf) := by
  obtain ⟨name, kind, mandatory, inputOnly, operation, repeated, key, description, leafType,
    children⟩ := e
  cases kind
  case directory => exact absurd rfl h
  case leaf =>
    cases leafType with
    | none => rfl
    | some t =>
      have hprecise := t.isPrecise_eq_nested
      simpa [isPrecise, isVague, isUntypedLeaf, EntryKind.isVague] using hprecise
  all_goals rfl

/-- No entry on the lines that the walk comes to is vague or a leaf without a type. -/
def WalkPrecise (ls : List Line) : Prop :=
  ∀ l ∈ ls, l.isWalked = true → l.entry.isVague = false ∧ l.entry.isUntypedLeaf = false

theorem walkPrecise_of_not_walked {ls : List Line} (h : ∀ l ∈ ls, l.isWalked = false) :
    WalkPrecise ls := by
  intro l hl hwalked
  exact absurd hwalked (by simp [h l hl])

theorem lines_eq (above : List Entry) (e : Entry) :
    e.lines above = ⟨above, e⟩ :: linesAll (above ++ [e]) e.children := by
  cases e
  rfl

theorem isPrecise_iff_lines_of_ne {above : List Entry} {e : Entry} (h : e.kind ≠ .directory)
    (hwalked : (⟨above, e⟩ : Line).isWalked = true) :
    e.isPrecise = true ↔ WalkPrecise (e.lines above) := by
  have hbelow : WalkPrecise (linesAll (above ++ [e]) e.children) :=
    walkPrecise_of_not_walked (not_walked_below h e.children)
  rw [isPrecise_eq_own h, Bool.and_eq_true, Bool.not_eq_true', Bool.not_eq_true', lines_eq,
    WalkPrecise, List.forall_mem_cons]
  exact ⟨fun hown => ⟨fun _ => hown, hbelow⟩, fun hlines => hlines.1 hwalked⟩

mutual

theorem isPrecise_iff_lines (above : List Entry) : (e : Entry) →
    (⟨above, e⟩ : Line).isWalked = true → (e.isPrecise = true ↔ WalkPrecise (e.lines above))
  | ⟨name, kind, mandatory, inputOnly, operation, repeated, key, description, leafType, children⟩,
      hwalked => by
    by_cases hkind : kind = .directory
    · subst hkind
      rw [lines, WalkPrecise, List.forall_mem_cons]
      have hbelow := allPrecise_iff_lines _ children fun child _ => walked_child hwalked rfl
      apply hbelow.trans
      exact (and_iff_right fun _ => ⟨rfl, rfl⟩).symm
    · exact isPrecise_iff_lines_of_ne hkind hwalked

theorem allPrecise_iff_lines (above : List Entry) : (es : List Entry) →
    (∀ e ∈ es, (⟨above, e⟩ : Line).isWalked = true) →
      (allPrecise es = true ↔ WalkPrecise (linesAll above es))
  | [], _ => by simp [allPrecise, linesAll, WalkPrecise]
  | e :: es, h => by
    obtain ⟨he, hes⟩ := List.forall_mem_cons.mp h
    rw [allPrecise, Bool.and_eq_true, linesAll, WalkPrecise, List.forall_mem_append,
      isPrecise_iff_lines above e he, allPrecise_iff_lines above es hes, WalkPrecise, WalkPrecise]

end

end Entry

namespace Module

theorem isPrecise_iff_made (strict : Bool) (m : Module) :
    m.isPrecise = true ↔ ∀ t ∈ m.made strict, t ≠ standIn strict :=
  Entry.allPrecise_iff_made strict _

theorem isPrecise_iff_lines (m : Module) : m.isPrecise = true ↔ Entry.WalkPrecise m.lines := by
  rw [isPrecise, lines]
  induction m.entries with
  | nil => simp [Entry.allPrecise, Entry.linesAll, Entry.WalkPrecise]
  | cons e es ih =>
    rw [Entry.linesAll, Entry.WalkPrecise, List.forall_mem_append, List.filter_cons]
    by_cases hdeclared : e.isDeclared = true
    · have hwalked : (⟨[], e⟩ : Line).isWalked = true := by
        simpa [Line.isWalked, Line.chain] using hdeclared
      rw [if_pos hdeclared, Entry.allPrecise, Bool.and_eq_true, ih,
        Entry.isPrecise_iff_lines [] e hwalked]
      rfl
    · have hnot : e.isDeclared = false := by simpa using hdeclared
      have hfirst := Entry.walkPrecise_of_not_walked (Entry.not_walked_of_not_declared hnot)
      rw [if_neg hdeclared, ih]
      exact (and_iff_right hfirst).symm

/-- Where the check finds nothing every leaf has a type. -/
theorem isUntypedLeaf_of_no_findings {m : Module} (h : m.findings = []) :
    ∀ l ∈ m.lines, l.entry.isUntypedLeaf = false := by
  have hlines : m.findings = m.lines.flatMap (Line.findings m.name) :=
    Entry.findingsAll_eq_lines m.name [] m.entries
  rw [hlines, List.flatMap_eq_nil_iff] at h
  intro l hl
  have hown := l.entry.filter_ownFindings (chainPath m.name l.chain)
  have hnone : l.entry.ownFindings (chainPath m.name l.chain) = [] := h l hl
  rw [hnone, List.filter_nil] at hown
  cases huntyped : l.entry.isUntypedLeaf with
  | false => rfl
  | true =>
    rw [huntyped] at hown
    exact absurd hown (by simp)

/-- Where the check finds nothing a stand-in is due to a vague entry. -/
theorem isPrecise_iff_no_vague {m : Module} (h : m.findings = []) :
    m.isPrecise = true ↔ ∀ l ∈ m.lines, l.isWalked = true → l.entry.isVague = false := by
  rw [isPrecise_iff_lines]
  constructor
  · intro hprecise l hl hwalked
    exact (hprecise l hl hwalked).1
  · intro hvague l hl hwalked
    exact ⟨hvague l hl hwalked, isUntypedLeaf_of_no_findings h l hl⟩

end Module

end YangScript
