import YangScript.Output.Source

/-!
# Order and repetition do not show

The revisions of a module, the values of an enumeration, the names of bits and the members of a
union are sets that are written as lists. Two modules that differ in nothing but the order and the
repetitions in such lists come to the same text. The types differ, as a union keeps the order of its
members; but every type is rendered to one text, and all that is decided is decided by that text.
-/

set_option autoImplicit false

namespace YangScript

/-- The two lists have the same items, in any order and any number. -/
def SameItems {α : Type} (as bs : List α) : Prop := ∀ a, a ∈ as ↔ a ∈ bs

theorem newest_congr {dates dates' : List String} (h : SameItems dates dates') :
    newest dates = newest dates' := by
  cases hd : newest dates with
  | none =>
    have hnil : dates' = [] := by
      rw [(newest_eq_none_iff dates).mp hd] at h
      exact List.eq_nil_iff_forall_not_mem.mpr fun d hmem => absurd ((h d).mpr hmem) (by simp)
    exact ((newest_eq_none_iff dates').mpr hnil).symm
  | some date =>
    obtain ⟨hmem, hall⟩ := greatest_of_newest hd
    cases hd' : newest dates' with
    | none =>
      rw [(newest_eq_none_iff dates').mp hd'] at h
      exact absurd ((h date).mp hmem) (by simp)
    | some date' =>
      obtain ⟨hmem', hall'⟩ := greatest_of_newest hd'
      have hle := hall' date ((h date).mp hmem)
      have hle' := hall date' ((h date').mpr hmem')
      rw [String.le_antisymm hle hle']

/-- A union shows the set of its members only. -/
theorem renderUnion_congr {members members' : List String} (h : SameItems members members') :
    (ScriptType.unionOf members).render = (ScriptType.unionOf members').render := by
  have hperm : (Text.distinct members).Perm (Text.distinct members') := by
    refine (List.perm_ext_iff_of_nodup (Text.nodup_distinct _) (Text.nodup_distinct _)).mpr ?_
    intro m
    rw [Text.mem_distinct, Text.mem_distinct]
    exact h m
  have hsorted : ∀ l : List String,
      (l.mergeSort fun a b => decide (a ≤ b)).Pairwise (fun a b => decide (a ≤ b) = true) :=
    List.pairwise_mergeSort
      (fun a b c => by simpa using String.le_trans)
      (fun a b => by simpa using String.le_total a b)
  have hsame := List.Perm.eq_of_pairwise
    (fun a b _ _ hab hba => String.le_antisymm (by simpa using hab) (by simpa using hba))
    (hsorted (Text.distinct members)) (hsorted (Text.distinct members'))
    (((List.mergeSort_perm _ _).trans hperm).trans (List.mergeSort_perm _ _).symm)
  have hempty : (Text.distinct members).isEmpty = (Text.distinct members').isEmpty :=
    hperm.isEmpty_eq
  rw [ScriptType.unionOf, ScriptType.unionOf, ScriptType.render, ScriptType.render, renderUnion,
    renderUnion, hsame, hempty]

namespace LeafType

mutual

/-- The same type but for the order and the repetitions of values, bits and members. -/
inductive SameUpToOrder : LeafType → LeafType → Prop
  | leafType (t : LeafType) {values bits : List String} {members : List LeafType}
      (sameValues : SameItems t.values values) (sameBits : SameItems t.bits bits)
      (forth : ∀ u ∈ t.members, IsAmong u members) (back : ∀ u ∈ members, Matches t.members u) :
      SameUpToOrder t { t with values, bits, members }

/-- Some item of the list is the same as the type. -/
inductive IsAmong : LeafType → List LeafType → Prop
  | intro {t u : LeafType} {us : List LeafType} (mem : u ∈ us) (same : SameUpToOrder t u) :
      IsAmong t us

/-- The type is the same as some item of the list. -/
inductive Matches : List LeafType → LeafType → Prop
  | intro {t u : LeafType} {ts : List LeafType} (mem : t ∈ ts) (same : SameUpToOrder t u) :
      Matches ts u

end

mutual

/-- Types that are the same up to order are rendered to one text. -/
theorem SameUpToOrder.render_eq (strict : Bool) : {t u : LeafType} → SameUpToOrder t u →
    (t.scriptType strict).render = (u.scriptType strict).render
  | _, _, .leafType ⟨name, kind, values, bits, members, path⟩ sameValues _ forth back => by
    cases kind
    case enumeration =>
      refine renderUnion_congr fun text => ?_
      simp only [List.mem_map, sameValues _]
    case union =>
      refine renderUnion_congr fun text => ?_
      constructor
      · intro htext
        obtain ⟨u, hu, rfl⟩ := mem_alternatives_iff.mp htext
        exact (forth u hu).render_mem strict
      · intro htext
        obtain ⟨u, hu, rfl⟩ := mem_alternatives_iff.mp htext
        exact (back u hu).render_mem strict
    all_goals rfl

theorem IsAmong.render_mem (strict : Bool) : {t : LeafType} → {us : List LeafType} →
    IsAmong t us → (t.scriptType strict).render ∈ alternatives strict us
  | _, _, .intro mem same => mem_alternatives_iff.mpr ⟨_, mem, (same.render_eq strict).symm⟩

theorem Matches.render_mem (strict : Bool) : {ts : List LeafType} → {u : LeafType} →
    Matches ts u → (u.scriptType strict).render ∈ alternatives strict ts
  | _, _, .intro mem same => mem_alternatives_iff.mpr ⟨_, mem, same.render_eq strict⟩

end

end LeafType

theorem render_scalarType (strict : Bool) {t u : Option LeafType}
    (h : Option.Rel LeafType.SameUpToOrder t u) :
    (scalarType strict t).render = (scalarType strict u).render := by
  cases h with
  | none => rfl
  | some same => exact same.render_eq strict

/-! ## What a record shows of its fields -/

/-- All that is written of a field: its name, whether it may be absent, and the text of its type. -/
def Field.sketch (f : Field ScriptType) : String × Bool × String :=
  (f.name, f.optional, f.value.render)

section

variable {fields fields' : List (Field ScriptType)}
  (h : fields.map Field.sketch = fields'.map Field.sketch)

include h

theorem renderFields_congr : ScriptType.renderFields fields = ScriptType.renderFields fields' := by
  have hlines : ∀ fs : List (Field ScriptType), ScriptType.renderFields fs =
      (fs.map Field.sketch).map (fun s => renderField s.1 s.2.1 s.2.2) := by
    intro fs
    rw [ScriptType.renderFields_eq_map, List.map_map]
    rfl
  rw [hlines, hlines, h]

theorem render_keyType_congr (key : Option String) :
    (keyType key fields).render = (keyType key fields').render := by
  have hkey : ∀ fs : List (Field ScriptType), (keyType key fs).render =
      (((fs.map Field.sketch).find? (fun s => key == some s.1)).map (fun s => s.2.2)).getD
        Primitive.string.keyword := by
    intro fs
    have hfind : (fs.map Field.sketch).find? (fun s => key == some s.1) =
        (fs.find? (fun f => key == some f.name)).map Field.sketch := List.find?_map ..
    rw [hfind, keyType]
    cases fs.find? (fun f => key == some f.name) with
    | none => rfl
    | some f => rfl
  rw [hkey, hkey, h]

end

namespace Entry

mutual

/-- The same entry but for the order and the repetitions in the types of leaves. -/
inductive SameUpToOrder : Entry → Entry → Prop
  | entry (e : Entry) {leafType : Option LeafType} {children : List Entry}
      (sameType : Option.Rel LeafType.SameUpToOrder e.leafType leafType)
      (sameChildren : AllSame e.children children) :
      SameUpToOrder e { e with leafType, children }

inductive AllSame : List Entry → List Entry → Prop
  | nil : AllSame [] []
  | cons {e e' : Entry} {es es' : List Entry} (head : SameUpToOrder e e') (tail : AllSame es es') :
      AllSame (e :: es) (e' :: es')

end

mutual

theorem SameUpToOrder.render_eq (strict : Bool) : {e e' : Entry} → SameUpToOrder e e' →
    (e.scriptType strict).render = (e'.scriptType strict).render
  | _, _, .entry ⟨_, kind, _, _, _, repeated, key, _, _, _⟩ sameType sameChildren => by
    cases kind
    case leaf =>
      have hscalar := render_scalarType strict sameType
      cases repeated with
      | true => exact congrArg (fun element => "Array<" ++ element ++ ">") hscalar
      | false => exact hscalar
    case directory =>
      have hfields := sameChildren.sketch_eq strict
      simp only [scriptType, ScriptType.render]
      rw [render_keyType_congr hfields key, renderFields_congr hfields]
    all_goals rfl

theorem AllSame.sketch_eq (strict : Bool) : {es es' : List Entry} → AllSame es es' →
    (scriptFields strict es).map Field.sketch = (scriptFields strict es').map Field.sketch
  | _, _, .nil => rfl
  | _, _, .cons head tail => by
    have hvalue := head.render_eq strict
    have hrest := tail.sketch_eq strict
    cases head with
    | entry e sameType sameChildren =>
      simp only [scriptFields, List.map_cons, Field.sketch, hvalue, hrest]

end

theorem SameUpToOrder.isDeclared_eq {e e' : Entry} (h : SameUpToOrder e e') :
    e.isDeclared = e'.isDeclared := by
  cases h
  rfl

theorem AllSame.filter : {es es' : List Entry} → AllSame es es' →
    AllSame (es.filter isDeclared) (es'.filter isDeclared)
  | _, _, .nil => .nil
  | _, _, .cons head tail => by
    have hrest := tail.filter
    rw [List.filter_cons, List.filter_cons, head.isDeclared_eq]
    split
    · exact .cons head hrest
    · exact hrest

end Entry

/-- The same module but for the order and the repetitions of its revisions and in the types of its
leaves. -/
inductive Module.SameUpToOrder : Module → Module → Prop
  | module (m : Module) {revisions : List String} {entries : List Entry}
      (sameRevisions : SameItems m.revisions revisions)
      (sameEntries : Entry.AllSame m.entries entries) :
      SameUpToOrder m { m with revisions, entries }

section

variable {m m' : Module} (h : m.SameUpToOrder m')

include h

theorem Module.SameUpToOrder.originComment_eq : m.originComment = m'.originComment := by
  have hcurrent : m.current = m'.current := by
    cases h with
    | module sameRevisions _ => exact newest_congr sameRevisions
  cases h
  simp only [originComment, hcurrent]

/-- The fields of the two interfaces show the same. -/
theorem Module.SameUpToOrder.sketch_eq (strict : Bool) :
    (m.interfaceOf strict).fields.map Field.sketch =
      (m'.interfaceOf strict).fields.map Field.sketch := by
  cases h with
  | module _ sameEntries => exact sameEntries.filter.sketch_eq strict

theorem Module.SameUpToOrder.name_eq : m.name = m'.name ∧ m.isSubmodule = m'.isSubmodule := by
  cases h
  exact ⟨rfl, rfl⟩

end

/-- What is generated does not depend on the order in which the revisions of a module, the values of
its enumerations, its bits and the members of its unions are written, nor on how often. -/
theorem source_independent_of_order {m m' : Module} (h : m.SameUpToOrder m')
    (options : SourceOptions) : (m.source options).value = (m'.source options).value := by
  obtain ⟨hname, hsub⟩ := h.name_eq
  have hfields := h.sketch_eq options.strict
  have hempty : (m.interfaceOf options.strict).isEmpty = (m'.interfaceOf options.strict).isEmpty := by
    simpa [Interface.isEmpty] using congrArg List.isEmpty hfields
  have hdeclaration : (m.interfaceOf options.strict).declaration options.style =
      (m'.interfaceOf options.strict).declaration options.style := by
    rw [Interface.declaration, Interface.declaration, renderFields_congr hfields]
    exact congrArg (fun name => renderDeclaration options.style name _) hname
  rw [Module.source_value, Module.source_value, hsub, hname]
  simp only [hempty, Module.sourceText, h.originComment_eq, hdeclaration]

theorem sameItems_of_subset {α : Type} {as bs : List α} (h : ∀ a ∈ as, a ∈ bs)
    (h' : ∀ b ∈ bs, b ∈ as) : SameItems as bs :=
  fun a => ⟨h a, h' a⟩

/-- A module with one leaf, whose type is a union with an enumeration among its members. -/
def moduleOfUnion (revisions values : List String) (members : LeafType → List LeafType) : Module :=
  let states := { LeafType.ofKind .enumeration with values }
  let state := { LeafType.ofKind .union with members := members states }
  { Module.ofName "m" with revisions, entries := [Entry.leaf "state" state] }

theorem source_independent_of_order_moduleOfUnion :
    let text := LeafType.ofKind .string
    let m := moduleOfUnion ["2020-01-01", "2021-01-01"] ["up", "down"] (fun states => [states, text])
    let m' := moduleOfUnion ["2021-01-01", "2020-01-01", "2021-01-01"] ["down", "up", "down"]
      (fun states => [text, states, text])
    (m.source .default).value = (m'.source .default).value := by
  intro text m m'
  have htext : text.SameUpToOrder text :=
    .leafType text (fun _ => Iff.rfl) (fun _ => Iff.rfl) (by simp [text, LeafType.ofKind])
      (by simp [text, LeafType.ofKind])
  let states := { LeafType.ofKind .enumeration with values := ["up", "down"] }
  let states' := { LeafType.ofKind .enumeration with values := ["down", "up", "down"] }
  have hstates : states.SameUpToOrder states' :=
    .leafType states (sameItems_of_subset (by decide) (by decide)) (fun _ => Iff.rfl)
      (by simp [states, LeafType.ofKind]) (by simp [LeafType.ofKind])
  have hunion : LeafType.SameUpToOrder
      { LeafType.ofKind .union with members := [states, text] }
      { LeafType.ofKind .union with members := [text, states', text] } := by
    refine .leafType _ (fun _ => Iff.rfl) (fun _ => Iff.rfl) ?_ ?_
    · refine List.forall_mem_cons.mpr ⟨.intro (by simp) hstates, ?_⟩
      exact List.forall_mem_singleton.mpr (.intro (by simp) htext)
    · refine List.forall_mem_cons.mpr ⟨.intro (by simp) htext, ?_⟩
      refine List.forall_mem_cons.mpr ⟨.intro (by simp) hstates, ?_⟩
      exact List.forall_mem_singleton.mpr (.intro (by simp) htext)
  have hsame : m.SameUpToOrder m' :=
    .module m (sameItems_of_subset (by decide) (by decide))
      (.cons (.entry _ (.some hunion) .nil) .nil)
  exact source_independent_of_order hsame .default

end YangScript
