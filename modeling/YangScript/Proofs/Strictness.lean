import YangScript.Output.Source
import YangScript.Proofs.DeclarationReading

/-!
# What strictness changes

Generating strictly and permissively are two runs over one module. They fail alike and come to no
text alike. Where they come to texts, these have the same fields, and the types differ in nothing
but the stand-in: `any` is where `unknown` was. This holds inside unions too, although their members
are rendered, sorted and told apart as texts, and for the keys of records, since no stand-in reads
as `string`. Where no stand-in is reached, the two texts are the same.
-/

set_option autoImplicit false

namespace YangScript

namespace ScriptType

mutual

/-- The second type is the first with `any` for `unknown`. Keys of records read as `string` in both
or in neither. -/
inductive Relaxes : ScriptType → ScriptType → Prop
  | precise {p : Primitive} (known : p ≠ .unknown ∧ p ≠ .any) :
      Relaxes (.primitive p) (.primitive p)
  | standIn : Relaxes (.primitive .unknown) (.primitive .any)
  | array {element element' : ScriptType} (elements : Relaxes element element') :
      Relaxes (.array element) (.array element')
  | literals (values : List String) : Relaxes (.ofLiterals values) (.ofLiterals values)
  | union {members members' : List ScriptType} (alternatives : RelaxesAll members members') :
      Relaxes (.unionOf (members.map render)) (.unionOf (members'.map render))
  | record {key key' : ScriptType} {fields fields' : List (Field ScriptType)}
      (keys : Relaxes key key') (text : key.readsAsString = key'.readsAsString)
      (members : RelaxesFields fields fields') : Relaxes (.record key fields) (.record key' fields')

inductive RelaxesAll : List ScriptType → List ScriptType → Prop
  | nil : RelaxesAll [] []
  | cons {t t' : ScriptType} {rest rest' : List ScriptType} (head : Relaxes t t')
      (tail : RelaxesAll rest rest') : RelaxesAll (t :: rest) (t' :: rest')

inductive RelaxesFields : List (Field ScriptType) → List (Field ScriptType) → Prop
  | nil : RelaxesFields [] []
  | cons {f f' : Field ScriptType} {rest rest' : List (Field ScriptType)}
      (name : f.name = f'.name) (optional : f.optional = f'.optional)
      (value : Relaxes f.value f'.value) (tail : RelaxesFields rest rest') :
      RelaxesFields (f :: rest) (f' :: rest')

end

/-! ## Which types read as `string` -/

theorem readsAsString_array (element : ScriptType) :
    (ScriptType.array element).readsAsString = false := by
  rw [readsAsString, beq_eq_false_iff_ne]
  intro h
  have hhead := congrArg (fun s => s.toList.head?) h
  simp [render, Primitive.keyword] at hhead

theorem readsAsString_record (key : ScriptType) (fields : List (Field ScriptType)) :
    (ScriptType.record key fields).readsAsString = false := by
  rw [readsAsString, beq_eq_false_iff_ne]
  intro h
  obtain ⟨c, hc, hstart⟩ := renderRecord_start key.render (renderFields fields)
  rw [render] at h
  rw [h] at hc
  obtain rfl : 's' = c := Option.some.inj hc
  exact absurd hstart (by decide)

/-- A union with more than one member shows a bar, so it reads as `string` only if that is all it
has. -/
theorem renderUnion_eq_string_iff (members : List String) :
    renderUnion members = Primitive.string.keyword ↔ members = [Primitive.string.keyword] := by
  constructor
  · intro h
    rw [renderUnion] at h
    split at h
    · exact absurd h (by decide)
    · rename_i hsome
      have hperm := List.mergeSort_perm members (fun a b => decide (a ≤ b))
      generalize members.mergeSort (fun a b => decide (a ≤ b)) = sorted at h hperm
      rcases sorted with _ | ⟨m, _ | ⟨n, rest⟩⟩
      · exact absurd (List.nil_perm.mp hperm) (by simpa using hsome)
      · rw [Text.join] at h
        rw [← h]
        exact (List.singleton_perm.mp hperm).symm
      · have hbar : '|' ∈ (Text.join " | " (m :: n :: rest)).toList := by simp [Text.join]
        rw [h] at hbar
        exact absurd hbar (by decide)
  · rintro rfl
    simp [renderUnion, Text.join]

/-- A union reads as `string` if it has members and all of them do. -/
theorem readsAsString_unionOf (members : List ScriptType) :
    (unionOf (members.map render)).readsAsString =
      (!members.isEmpty && members.all readsAsString) := by
  rw [Bool.eq_iff_iff, readsAsString, beq_iff_eq, unionOf, render, renderUnion_eq_string_iff,
    Text.distinct_eq_singleton_iff]
  simp [readsAsString]

mutual

/-- No type comes to read as `string`, or ceases to, by being relaxed. -/
theorem Relaxes.readsAsString_eq : {s t : ScriptType} → Relaxes s t →
    s.readsAsString = t.readsAsString
  | _, _, .precise _ => rfl
  | _, _, .standIn => rfl
  | _, _, .array _ => by rw [readsAsString_array, readsAsString_array]
  | _, _, .literals _ => rfl
  | _, _, .union alternatives => by
    obtain ⟨hempty, hall⟩ := alternatives.readAsString_eq
    rw [readsAsString_unionOf, readsAsString_unionOf, hempty, hall]
  | _, _, .record _ _ _ => by rw [readsAsString_record, readsAsString_record]

theorem RelaxesAll.readAsString_eq : {ss ts : List ScriptType} → RelaxesAll ss ts →
    ss.isEmpty = ts.isEmpty ∧ ss.all readsAsString = ts.all readsAsString
  | _, _, .nil => ⟨rfl, rfl⟩
  | _, _, .cons head tail => by
    rw [List.all_cons, List.all_cons, head.readsAsString_eq, tail.readAsString_eq.2]
    exact ⟨rfl, rfl⟩

end

/-- The keys of two records whose fields are related. -/
theorem RelaxesFields.keyType (key : Option String) {fs gs : List (Field ScriptType)}
    (h : RelaxesFields fs gs) : Relaxes (YangScript.keyType key fs) (YangScript.keyType key gs) := by
  induction fs generalizing gs with
  | nil =>
    cases h
    exact .precise (by decide)
  | cons f rest ih =>
    cases h with
    | @cons _ g _ rest' name _ value tail =>
      have hrest := ih tail
      rw [YangScript.keyType, YangScript.keyType, List.find?_cons, List.find?_cons, name]
      cases key == some g.name with
      | true => exact value
      | false => exact hrest

end ScriptType

/-! ## The two runs of a walk -/

namespace LeafType

mutual

theorem relaxes_scriptType : (t : LeafType) → (t.scriptType true).Relaxes (t.scriptType false)
  | ⟨_, kind, values, _, members, _⟩ => by
    cases kind
    case bits => exact .array (.precise (by decide))
    case enumeration => exact .literals values
    case union =>
      have hmembers := relaxesAll_members members
      rw [scriptType, scriptType, alternatives_eq_map, alternatives_eq_map]
      exact .union hmembers
    case leafRef => exact .standIn
    case unknown keyword => exact .standIn
    all_goals exact .precise (by decide)

theorem relaxesAll_members : (ts : List LeafType) →
    ScriptType.RelaxesAll (ts.map (scriptType true)) (ts.map (scriptType false))
  | [] => .nil
  | t :: ts => .cons (relaxes_scriptType t) (relaxesAll_members ts)

end

end LeafType

theorem relaxes_scalarType (t : Option LeafType) :
    (scalarType true t).Relaxes (scalarType false t) := by
  cases t with
  | none => exact .standIn
  | some t => exact t.relaxes_scriptType

namespace Entry

mutual

theorem relaxes_scriptType : (e : Entry) → (e.scriptType true).Relaxes (e.scriptType false)
  | ⟨_, kind, _, _, _, repeated, key, _, leafType, children⟩ => by
    cases kind
    case anyXml => exact .precise (by decide)
    case leaf =>
      have hscalar := relaxes_scalarType leafType
      cases repeated with
      | true => exact .array hscalar
      | false => exact hscalar
    case directory =>
      have hfields := relaxesFields_scriptFields children
      have hkey := hfields.keyType key
      exact .record hkey hkey.readsAsString_eq hfields
    all_goals exact .standIn

theorem relaxesFields_scriptFields : (es : List Entry) →
    ScriptType.RelaxesFields (scriptFields true es) (scriptFields false es)
  | [] => .nil
  | e :: es => .cons rfl rfl (relaxes_scriptType e) (relaxesFields_scriptFields es)

end

end Entry

/-! ## Modules without a stand-in -/

namespace LeafType

mutual

/-- No stand-in is reached in the type: no leaf reference and no unknown kind. -/
def isPrecise : LeafType → Bool
  | ⟨_, kind, _, _, members, _⟩ =>
    match kind with
    | .union => allPrecise members
    | .leafRef => false
    | .unknown _ => false
    | _ => true

def allPrecise : List LeafType → Bool
  | [] => true
  | t :: ts => isPrecise t && allPrecise ts

end

mutual

theorem scriptType_of_precise : (t : LeafType) → t.isPrecise = true →
    t.scriptType true = t.scriptType false
  | ⟨_, kind, _, _, members, _⟩, h => by
    cases kind
    case union => exact congrArg ScriptType.unionOf (alternatives_of_precise members h)
    case leafRef => exact absurd h (by simp [isPrecise])
    case unknown keyword => exact absurd h (by simp [isPrecise])
    all_goals rfl

theorem alternatives_of_precise : (ts : List LeafType) → allPrecise ts = true →
    alternatives true ts = alternatives false ts
  | [], _ => rfl
  | t :: ts, h => by
    rw [allPrecise, Bool.and_eq_true] at h
    rw [alternatives, alternatives, scriptType_of_precise t h.1, alternatives_of_precise ts h.2]

end

end LeafType

namespace Entry

mutual

/-- No stand-in is reached at the entry or below it: no leaf without a precise type, and no entry of
a kind that has none. -/
def isPrecise : Entry → Bool
  | ⟨_, kind, _, _, _, _, _, _, leafType, children⟩ =>
    match kind with
    | .anyXml => true
    | .leaf =>
      match leafType with
      | none => false
      | some t => t.isPrecise
    | .directory => allPrecise children
    | _ => false

def allPrecise : List Entry → Bool
  | [] => true
  | e :: es => isPrecise e && allPrecise es

end

mutual

theorem scriptType_of_precise : (e : Entry) → e.isPrecise = true →
    e.scriptType true = e.scriptType false
  | ⟨_, kind, _, _, _, repeated, key, _, leafType, children⟩, h => by
    cases kind
    case anyXml => rfl
    case leaf =>
      cases leafType with
      | none => exact absurd h (by simp [isPrecise])
      | some t =>
        have hscalar : scalarType true (some t) = scalarType false (some t) :=
          t.scriptType_of_precise h
        rw [scriptType, scriptType, hscalar]
    case directory =>
      rw [scriptType, scriptType, scriptFields_of_precise children h]
    all_goals exact absurd h (by simp [isPrecise])

theorem scriptFields_of_precise : (es : List Entry) → allPrecise es = true →
    scriptFields true es = scriptFields false es
  | [], _ => rfl
  | e :: es, h => by
    rw [allPrecise, Bool.and_eq_true] at h
    rw [scriptFields, scriptFields, scriptType_of_precise e h.1, scriptFields_of_precise es h.2]

end

end Entry

/-- No stand-in is reached in what becomes a field. -/
def Module.isPrecise (m : Module) : Bool := Entry.allPrecise (m.entries.filter Entry.isDeclared)

theorem ScriptType.RelaxesFields.isEmpty_eq {fs gs : List (Field ScriptType)}
    (h : RelaxesFields fs gs) : fs.isEmpty = gs.isEmpty := by
  cases h <;> rfl

/-- Strictness changes the stand-in and nothing else. A module fails for the same reason or comes
to no text, whether strict or not, or comes to the texts of two interfaces of which the second is
the first with `any` for `unknown`; and if no stand-in is reached, to the same. -/
theorem strictness_changes_stand_in (m : Module) (style : DeclarationForm) (header : Bool) :
    let strict := (m.source { strict := true, style, header }).value
    let permissive := (m.source { strict := false, style, header }).value
    ((∃ e, strict = .error e ∧ permissive = .error e) ∨
      (strict = .ok none ∧ permissive = .ok none) ∨
      ∃ i j : Interface, (m.interface true).value = .ok i ∧ (m.interface false).value = .ok j ∧
        i.name = j.name ∧ ScriptType.RelaxesFields i.fields j.fields ∧
        strict = .ok (some (m.sourceText i style header)) ∧
        permissive = .ok (some (m.sourceText j style header))) ∧
    (m.isPrecise = true → strict = permissive) := by
  intro strict permissive
  have hstrict : strict = _ := m.source_value { strict := true, style, header }
  have hpermissive : permissive = _ := m.source_value { strict := false, style, header }
  constructor
  · cases hsub : m.isSubmodule with
    | true =>
      rw [hsub] at hstrict hpermissive
      exact Or.inl ⟨_, hstrict, hpermissive⟩
    | false =>
      rw [hsub] at hstrict hpermissive
      have hfields := Entry.relaxesFields_scriptFields (m.entries.filter Entry.isDeclared)
      have hempty : (m.interfaceOf true).isEmpty = (m.interfaceOf false).isEmpty :=
        hfields.isEmpty_eq
      cases hnone : (m.interfaceOf false).isEmpty with
      | true =>
        simp only [hempty, hnone] at hstrict hpermissive
        exact Or.inr (Or.inl ⟨hstrict, hpermissive⟩)
      | false =>
        simp only [hempty, hnone] at hstrict hpermissive
        have hinterface : ∀ strict, (m.interface strict).value = .ok (m.interfaceOf strict) := by
          intro strict
          rw [Module.interface, hsub]
          rfl
        exact Or.inr (Or.inr ⟨_, _, hinterface true, hinterface false, rfl, hfields, hstrict,
          hpermissive⟩)
  · intro hprecise
    have hsame : m.interfaceOf true = m.interfaceOf false := by
      rw [Module.interfaceOf, Entry.scriptFields_of_precise _ hprecise, Module.interfaceOf]
    rw [hstrict, hpermissive, hsame]

/-- A list that is keyed by a union of texts only, which is an object literal either way. -/
theorem strictness_changes_stand_in_listKeyedBy :
    let text := LeafType.ofKind .string
    let m := listKeyedBy { LeafType.ofKind .union with members := [text, text] }
    (m.source { strict := true, style := .interface, header := true }).value =
      (m.source { strict := false, style := .interface, header := true }).value := by
  intro text m
  have hprecise : m.isPrecise = true := by decide
  exact (strictness_changes_stand_in m .interface true).2 hprecise

end YangScript
