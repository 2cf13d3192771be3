import YangScript.Output.Source

/-!
# What is said of leaves without a type

Two walks speak of leaves without a type. The check goes through every entry and gives the path of
such a leaf. The walk that makes the types leaves out operations and inputs at the top, goes below
directories only, and gives the bare name. Both are compared with one list, the lines of the module,
each of which is an entry with the entries around it: the second walk speaks of those lines of the
first that it comes to. A module in which the check finds nothing leads to no union without members,
neither for a leaf nor inside another union.
-/

set_option autoImplicit false

namespace YangScript

/-- The path that some nested entries of the module `owner` make. -/
def chainPath (owner : String) (chain : List Entry) : String :=
  chain.foldl (fun parent e => e.pathIn parent) owner

theorem chainPath_concat (owner : String) (chain : List Entry) (e : Entry) :
    chainPath owner (chain ++ [e]) = e.pathIn (chainPath owner chain) := by
  rw [chainPath, List.foldl_append]
  rfl

/-- An entry with the entries around it, the outermost first. -/
structure Line where
  above : List Entry
  entry : Entry

namespace Line

def chain (l : Line) : List Entry := l.above ++ [l.entry]

/-- What the check says of the entry itself, in the module `owner`. -/
def findings (owner : String) (l : Line) : List Finding :=
  l.entry.ownFindings (chainPath owner l.chain)

/-- The walk comes to an entry if the top-level entry becomes a field and all around it are
directories. -/
def isWalked (l : Line) : Bool :=
  l.chain.head?.all Entry.isDeclared && l.above.all (fun e => decide (e.kind = .directory))

end Line

namespace Entry

mutual

/-- The entry and all below it, each before what is below it. -/
def lines (above : List Entry) : Entry → List Line
  | e@⟨_, _, _, _, _, _, _, _, _, children⟩ => ⟨above, e⟩ :: linesAll (above ++ [e]) children

def linesAll (above : List Entry) : List Entry → List Line
  | [] => []
  | e :: es => lines above e ++ linesAll above es

end

end Entry

def Module.lines (m : Module) : List Line := Entry.linesAll [] m.entries

/-- Each finding with the line of the entry that gives cause for it. -/
def Module.reports (m : Module) : List (Line × Finding) :=
  m.lines.flatMap (fun l => (l.findings m.name).map (fun f => (l, f)))

def Finding.isMissingType : Finding → Bool
  | missingType _ => true
  | _ => false

/-- The leaf that a notice says to have no type. -/
def Notice.untypedName? : Notice → Option String
  | untypedLeaf name _ => some name
  | _ => none

/-! ## The findings are those of the lines -/

namespace Entry

mutual

theorem findings_eq_lines (owner : String) (above : List Entry) : (e : Entry) →
    e.findings (chainPath owner above) = (e.lines above).flatMap (Line.findings owner)
  | ⟨_, _, _, _, _, _, _, _, _, children⟩ => by
    rw [findings, lines, List.flatMap_cons, ← findingsAll_eq_lines owner _ children, Line.findings,
      Line.chain, chainPath_concat]

theorem findingsAll_eq_lines (owner : String) (above : List Entry) : (es : List Entry) →
    findingsAll (chainPath owner above) es = (linesAll above es).flatMap (Line.findings owner)
  | [] => rfl
  | e :: es => by
    rw [findingsAll, linesAll, List.flatMap_append, ← findings_eq_lines owner above e,
      ← findingsAll_eq_lines owner above es]

end

end Entry

theorem Module.map_snd_reports (m : Module) : m.reports.map Prod.snd = m.findings := by
  have hlines : m.findings = m.lines.flatMap (Line.findings m.name) :=
    Entry.findingsAll_eq_lines m.name [] m.entries
  rw [hlines, reports, List.map_flatMap]
  simp only [List.map_map, Function.comp_def, List.map_id']

/-! ## Where a type is missing -/

def Entry.isUntypedLeaf (e : Entry) : Bool := decide (e.kind = .leaf) && e.leafType.isNone

namespace LeafType

mutual

/-- A type never gives cause to say that there is none. -/
theorem not_isMissingType (path : String) : (t : LeafType) →
    ∀ f ∈ t.findings path, f.isMissingType = false
  | ⟨_, kind, values, _, members, _⟩ => by
    cases kind
    case enumeration =>
      rw [findings]
      split <;> simp [Finding.isMissingType]
    case union =>
      rw [findings]
      split
      · simp [Finding.isMissingType]
      · exact not_isMissingType_all path members
    all_goals simp [findings]

theorem not_isMissingType_all (path : String) : (ts : List LeafType) →
    ∀ f ∈ findingsAll path ts, f.isMissingType = false
  | [] => by simp [findingsAll]
  | t :: ts => by
    rw [findingsAll, List.forall_mem_append]
    exact ⟨not_isMissingType path t, not_isMissingType_all path ts⟩

end

end LeafType

theorem Entry.filter_ownFindings (path : String) (e : Entry) :
    (e.ownFindings path).filter Finding.isMissingType =
      if e.isUntypedLeaf then [.missingType path] else [] := by
  rw [ownFindings, isUntypedLeaf]
  by_cases hleaf : e.kind = .leaf
  · cases htype : e.leafType with
    | none => simp [hleaf, Finding.isMissingType]
    | some t =>
      have hnone : (t.findings path).filter Finding.isMissingType = [] := by
        rw [List.filter_eq_nil_iff]
        intro f hf
        rw [t.not_isMissingType path f hf]
        simp
      simpa [hleaf] using hnone
  · simp [hleaf]

/-- The names of the leaves without a type on some lines that the walk comes to. -/
def untypedNames (ls : List Line) : List String :=
  (ls.filter (fun l => l.isWalked && l.entry.isUntypedLeaf)).map (fun l => l.entry.name)

theorem untypedNames_append (ls ls' : List Line) :
    untypedNames (ls ++ ls') = untypedNames ls ++ untypedNames ls' := by
  rw [untypedNames, List.filter_append, List.map_append]
  rfl

theorem untypedNames_walked {l : Line} (h : l.isWalked = true) (ls : List Line) :
    untypedNames (l :: ls) =
      (if l.entry.isUntypedLeaf then [l.entry.name] else []) ++ untypedNames ls := by
  rw [untypedNames, List.filter_cons, h, Bool.true_and]
  cases l.entry.isUntypedLeaf <;> rfl

theorem untypedNames_of_not_walked {ls : List Line} (h : ∀ l ∈ ls, l.isWalked = false) :
    untypedNames ls = [] := by
  have hnone : ls.filter (fun l => l.isWalked && l.entry.isUntypedLeaf) = [] := by
    rw [List.filter_eq_nil_iff]
    intro l hl
    simp [h l hl]
  rw [untypedNames, hnone]
  rfl

/-- On one line, the findings that a type is missing are those of a leaf without one. -/
theorem untypedNames_line (owner : String) (l : Line) :
    (((l.findings owner).map (fun f => (l, f))).filter
        (fun r => r.2.isMissingType && r.1.isWalked)).map (fun r => r.1.entry.name) =
      untypedNames [l] := by
  have hown := l.entry.filter_ownFindings (chainPath owner l.chain)
  rw [List.filter_map, List.map_map, untypedNames, Line.findings]
  cases hwalked : l.isWalked with
  | false => simp [hwalked, Function.comp_def]
  | true =>
    simp only [Function.comp_def, hwalked, Bool.and_true, hown]
    cases huntyped : l.entry.isUntypedLeaf <;> simp [hwalked, huntyped]

theorem untypedNames_reports (m : Module) :
    (m.reports.filter (fun r => r.2.isMissingType && r.1.isWalked)).map (fun r => r.1.entry.name) =
      untypedNames m.lines := by
  rw [Module.reports]
  induction m.lines with
  | nil => rfl
  | cons l ls ih =>
    rw [List.flatMap_cons, List.filter_append, List.map_append, untypedNames_line, ih,
      ← untypedNames_append]
    rfl

/-! ## Which lines the walk comes to -/

namespace Entry

mutual

theorem above_of_mem_lines (above : List Entry) : (e : Entry) →
    ∀ l ∈ e.lines above, above <+: l.above
  | ⟨_, _, _, _, _, _, _, _, _, children⟩ => by
    rw [lines, List.forall_mem_cons]
    refine ⟨List.prefix_refl above, fun l hl => ?_⟩
    exact (List.prefix_append above _).trans (above_of_mem_linesAll _ children l hl)

theorem above_of_mem_linesAll (above : List Entry) : (es : List Entry) →
    ∀ l ∈ linesAll above es, above <+: l.above
  | [] => by simp [linesAll]
  | e :: es => by
    rw [linesAll, List.forall_mem_append]
    exact ⟨above_of_mem_lines above e, above_of_mem_linesAll above es⟩

end

/-- Nothing below an entry that is no directory is walked. -/
theorem not_walked_below {above : List Entry} {e : Entry} (h : e.kind ≠ .directory)
    (es : List Entry) : ∀ l ∈ linesAll (above ++ [e]) es, l.isWalked = false := by
  intro l hl
  obtain ⟨between, hbetween⟩ := above_of_mem_linesAll (above ++ [e]) es l hl
  have hmem : e ∈ l.above := by simp [← hbetween]
  have hall : l.above.all (fun e => decide (e.kind = .directory)) = false := by
    rw [List.all_eq_false]
    exact ⟨e, hmem, by simpa using h⟩
  rw [Line.isWalked, hall, Bool.and_false]

/-- Nothing at or below a top-level entry that becomes no field is walked. -/
theorem not_walked_of_not_declared {e : Entry} (h : e.isDeclared = false) :
    ∀ l ∈ e.lines [], l.isWalked = false := by
  have hfirst : ∀ l ∈ e.lines [], l.chain.head? = some e := by
    obtain ⟨name, kind, mandatory, inputOnly, operation, repeated, key, description, leafType,
      children⟩ := e
    rw [lines, List.forall_mem_cons]
    refine ⟨rfl, fun l hl => ?_⟩
    obtain ⟨between, hbetween⟩ := above_of_mem_linesAll _ children l hl
    simp [Line.chain, ← hbetween]
  intro l hl
  rw [Line.isWalked, hfirst l hl, Option.all_some, h, Bool.false_and]

theorem walked_child {above : List Entry} {e child : Entry}
    (hwalked : (⟨above, e⟩ : Line).isWalked = true) (h : e.kind = .directory) :
    (⟨above ++ [e], child⟩ : Line).isWalked = true := by
  rw [Line.isWalked, Bool.and_eq_true, Line.chain] at hwalked ⊢
  have hhead : (above ++ [e] ++ [child]).head? = (above ++ [e]).head? := by
    cases above <;> rfl
  rw [hhead, List.all_append, hwalked.2]
  exact ⟨hwalked.1, by simp [h]⟩

end Entry

/-! ## What the walk says -/

namespace LeafType

mutual

/-- Of a type it is never said that there is none. -/
theorem untypedName?_notices (strict : Bool) (owner : String) : (t : LeafType) →
    (t.notices strict owner).filterMap Notice.untypedName? = []
  | ⟨_, kind, _, _, members, _⟩ => by
    cases kind
    case union => exact untypedName?_noticesAll strict owner members
    all_goals rfl

theorem untypedName?_noticesAll (strict : Bool) (owner : String) : (ts : List LeafType) →
    (noticesAll strict owner ts).filterMap Notice.untypedName? = []
  | [] => rfl
  | t :: ts => by
    rw [noticesAll, List.filterMap_append, untypedName?_notices strict owner t,
      untypedName?_noticesAll strict owner ts]
    rfl

end

end LeafType

namespace Entry

/-- What an entry says of itself that is no directory. -/
theorem untypedName?_notices (strict : Bool) {e : Entry} (h : e.kind ≠ .directory) :
    (e.notices strict).filterMap Notice.untypedName? =
      if e.isUntypedLeaf then [e.name] else [] := by
  obtain ⟨name, kind, mandatory, inputOnly, operation, repeated, key, description, leafType,
    children⟩ := e
  cases kind
  case directory => exact absurd rfl h
  case leaf =>
    cases leafType with
    | none => rfl
    | some t => exact t.untypedName?_notices strict name
  all_goals rfl

mutual

theorem untypedNames_lines (strict : Bool) (above : List Entry) : (e : Entry) →
    (⟨above, e⟩ : Line).isWalked = true →
      (e.notices strict).filterMap Notice.untypedName? = untypedNames (e.lines above)
  | ⟨name, kind, mandatory, inputOnly, operation, repeated, key, description, leafType, children⟩,
      hwalked => by
    rw [lines, untypedNames_walked hwalked]
    by_cases hkind : kind = .directory
    · subst hkind
      show (noticesAll strict children).filterMap Notice.untypedName? = _
      rw [untypedNames_linesAll strict _ children fun child _ => walked_child hwalked rfl]
      rfl
    · rw [untypedName?_notices strict hkind,
        untypedNames_of_not_walked (not_walked_below hkind children), List.append_nil]

theorem untypedNames_linesAll (strict : Bool) (above : List Entry) : (es : List Entry) →
    (∀ e ∈ es, (⟨above, e⟩ : Line).isWalked = true) →
      (noticesAll strict es).filterMap Notice.untypedName? = untypedNames (linesAll above es)
  | [], _ => rfl
  | e :: es, h => by
    obtain ⟨he, hes⟩ := List.forall_mem_cons.mp h
    rw [noticesAll, linesAll, List.filterMap_append, untypedNames_append,
      untypedNames_lines strict above e he, untypedNames_linesAll strict above es hes]

end

end Entry

theorem Module.untypedName?_entryNotices (strict : Bool) (owner : String) (e : Entry) :
    (entryNotices strict owner e).filterMap Notice.untypedName? = untypedNames (e.lines []) := by
  rw [entryNotices]
  by_cases hdeclared : e.isDeclared = true
  · have hplain := hdeclared
    rw [Entry.isDeclared, Bool.and_eq_true, Bool.not_eq_true', Bool.not_eq_true'] at hplain
    have hwalked : (⟨[], e⟩ : Line).isWalked = true := by
      simpa [Line.isWalked, Line.chain] using hdeclared
    rw [hplain.1, hplain.2]
    exact Entry.untypedNames_lines strict [] e hwalked
  · have hnot : e.isDeclared = false := by simpa using hdeclared
    rw [untypedNames_of_not_walked (Entry.not_walked_of_not_declared hnot)]
    cases hoperation : e.operation with
    | true => rfl
    | false =>
      have hinput : e.inputOnly = true := by simpa [Entry.isDeclared, hoperation] using hnot
      rw [hinput]
      rfl

theorem Module.untypedName?_walkNotices (strict : Bool) (m : Module) :
    (m.walkNotices strict).filterMap Notice.untypedName? = untypedNames m.lines := by
  rw [walkNotices, lines]
  induction m.entries with
  | nil => rfl
  | cons e es ih =>
    rw [List.flatMap_cons, List.filterMap_append, untypedName?_entryNotices, ih, Entry.linesAll,
      untypedNames_append]

/-! ## The types that the walk makes -/

namespace Entry

mutual

/-- Every type that is made on the way to the type of an entry. The members of a union are made as
types too, at any depth, although the union keeps their texts only. -/
def made (strict : Bool) : Entry → List ScriptType
  | e@⟨_, kind, _, _, _, _, _, _, leafType, children⟩ =>
    match kind with
    | .leaf =>
      e.scriptType strict :: scalarType strict leafType ::
        (leafType.toList.flatMap LeafType.nested).map (LeafType.scriptType strict)
    | .directory => e.scriptType strict :: madeAll strict children
    | _ => [e.scriptType strict]

def madeAll (strict : Bool) : List Entry → List ScriptType
  | [] => []
  | e :: es => made strict e ++ madeAll strict es

end

end Entry

/-- Every type that is made on the way to the interface of a module. -/
def Module.made (strict : Bool) (m : Module) : List ScriptType :=
  Entry.madeAll strict (m.entries.filter Entry.isDeclared)

theorem ScriptType.unionOf_ne_nil {texts : List String} (h : texts ≠ []) :
    unionOf texts ≠ .union [] := by
  intro he
  exact Text.distinct_ne_nil h (ScriptType.union.inj he)

namespace LeafType

mutual

theorem made_of_no_findings (strict : Bool) (path : String) : (t : LeafType) →
    t.findings path = [] → ∀ u ∈ t.nested, u.scriptType strict ≠ .union []
  | ⟨name, kind, values, bits, members, p⟩, h => by
    have hprimitive : ∀ q : Primitive, ScriptType.primitive q ≠ .union [] := by simp
    cases kind
    case enumeration =>
      have hvalues : values ≠ [] := by
        rintro rfl
        exact absurd h (by simp [findings])
      simp only [nested, List.mem_singleton, forall_eq]
      exact ScriptType.unionOf_ne_nil (by simpa using hvalues)
    case union =>
      have hmembers : members ≠ [] := by
        rintro rfl
        exact absurd h (by simp [findings])
      have hinner : findingsAll path members = [] := by simpa [findings, hmembers] using h
      simp only [nested, List.forall_mem_cons]
      refine ⟨ScriptType.unionOf_ne_nil ?_, made_of_no_findings_all strict path members hinner⟩
      rw [alternatives_eq_map]
      simpa using hmembers
    case bits => simp [nested, scriptType]
    all_goals
      simp only [nested, List.mem_singleton, forall_eq]
      exact hprimitive _

theorem made_of_no_findings_all (strict : Bool) (path : String) : (ts : List LeafType) →
    findingsAll path ts = [] → ∀ u ∈ nestedAll ts, u.scriptType strict ≠ .union []
  | [], _ => by simp [nestedAll]
  | t :: ts, h => by
    rw [findingsAll, List.append_eq_nil_iff] at h
    rw [nestedAll, List.forall_mem_append]
    exact ⟨made_of_no_findings strict path t h.1, made_of_no_findings_all strict path ts h.2⟩

end

theorem mem_nested_self (t : LeafType) : t ∈ t.nested := by
  obtain ⟨name, kind, values, bits, members, path⟩ := t
  cases kind <;> exact List.mem_cons_self

end LeafType

namespace Entry

mutual

theorem made_of_no_findings (strict : Bool) (parent : String) : (e : Entry) →
    e.findings parent = [] → ∀ t ∈ e.made strict, t ≠ .union []
  | ⟨name, kind, mandatory, inputOnly, operation, repeated, key, description, leafType, children⟩,
      h => by
    rw [findings, List.append_eq_nil_iff] at h
    have hprimitive : ∀ q : Primitive, ScriptType.primitive q ≠ .union [] := by simp
    cases kind
    case leaf =>
      cases leafType with
      | none => exact absurd h.1 (by simp [ownFindings])
      | some t =>
        have hnested := t.made_of_no_findings strict _ h.1
        have hscalar : t.scriptType strict ≠ .union [] := hnested t t.mem_nested_self
        have hmade : ∀ u ∈ t.nested.map (LeafType.scriptType strict), u ≠ .union [] := by
          simpa using hnested
        simp only [made, Option.toList, List.flatMap_singleton, List.forall_mem_cons]
        refine ⟨?_, hscalar, hmade⟩
        cases repeated with
        | true => simp [scriptType]
        | false => exact hscalar
    case directory =>
      simp only [made, List.forall_mem_cons]
      refine ⟨by simp [scriptType], made_of_no_findings_all strict _ children h.2⟩
    all_goals
      simp only [made, List.mem_singleton, forall_eq]
      exact hprimitive _

theorem made_of_no_findings_all (strict : Bool) (parent : String) : (es : List Entry) →
    findingsAll parent es = [] → ∀ t ∈ madeAll strict es, t ≠ .union []
  | [], _ => by simp [madeAll]
  | e :: es, h => by
    rw [findingsAll, List.append_eq_nil_iff] at h
    rw [madeAll, List.forall_mem_append]
    exact ⟨made_of_no_findings strict parent e h.1, made_of_no_findings_all strict parent es h.2⟩

end

theorem findingsAll_filter (parent : String) (p : Entry → Bool) {es : List Entry}
    (h : findingsAll parent es = []) : findingsAll parent (es.filter p) = [] := by
  induction es with
  | nil => rfl
  | cons e es ih =>
    rw [findingsAll, List.append_eq_nil_iff] at h
    rw [List.filter_cons]
    split
    · rw [findingsAll, h.1, ih h.2]
      rfl
    · exact ih h.2

end Entry

/-- The check and the walk agree on the leaves without a type, in order and number, where the walk
comes to them. Where the check finds nothing the walk gives no such notice, and no union that it
makes is without members. -/
theorem untyped_notices_are_findings (m : Module) (strict : Bool) (h : m.isSubmodule = false) :
    m.reports.map Prod.snd = m.findings ∧
      (m.interface strict).notices.filterMap Notice.untypedName? =
        (m.reports.filter (fun r => r.2.isMissingType && r.1.isWalked)).map
          (fun r => r.1.entry.name) ∧
      (m.findings = [] →
        (m.interface strict).notices.filterMap Notice.untypedName? = [] ∧
          ∀ t ∈ m.made strict, t ≠ .union []) := by
  have hnotices : (m.interface strict).notices = m.walkNotices strict := by
    rw [Module.interface, h]
    rfl
  rw [hnotices, untypedNames_reports, Module.untypedName?_walkNotices]
  refine ⟨m.map_snd_reports, rfl, fun hnone => ⟨?_, ?_⟩⟩
  · have hreports : m.reports = [] := by
      rw [← List.map_eq_nil_iff, m.map_snd_reports, hnone]
    rw [← untypedNames_reports, hreports]
    rfl
  · exact Entry.made_of_no_findings_all strict m.name _
      (Entry.findingsAll_filter m.name Entry.isDeclared hnone)

/-- A leaf without a type in an operation, one in a container and one of the module itself. -/
def untypedModule : Module :=
  { Module.ofName "m" with
    entries :=
      [{ Entry.directory "act" with operation := true, children := [Entry.ofKind "x" .leaf] },
        { Entry.directory "box" with children := [Entry.ofKind "y" .leaf] },
        Entry.ofKind "z" .leaf] }

/-- The only leaf is a union of a union. -/
def nestedModule : Module :=
  { Module.ofName "m" with
    entries :=
      [Entry.leaf "u" { LeafType.ofKind .union with
        members := [{ LeafType.ofKind .union with members := [LeafType.ofKind .int8] }] }] }

/-- The check finds the leaf in the operation too; the walk does not come to it. In the second
module the check finds nothing. -/
theorem untyped_notices_are_findings_untypedModule :
    untypedModule.isSubmodule = false ∧
      untypedModule.findings =
        [.missingType "m/act/x", .missingType "m/box/y", .missingType "m/z"] ∧
      (untypedModule.interface true).notices.filterMap Notice.untypedName? = ["y", "z"] ∧
      nestedModule.isSubmodule = false ∧ nestedModule.findings = [] ∧
      (nestedModule.made true).length = 5 ∧
      ∀ t ∈ nestedModule.made true, t ≠ .union [] := by
  obtain ⟨-, hnames, -⟩ := untyped_notices_are_findings untypedModule true rfl
  obtain ⟨-, -, hmade⟩ := untyped_notices_are_findings nestedModule true rfl
  refine ⟨rfl, by decide +kernel, ?_, rfl, rfl, rfl, (hmade rfl).2⟩
  rw [hnames]
  decide +kernel

end YangScript
