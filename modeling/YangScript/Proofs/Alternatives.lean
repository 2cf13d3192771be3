import Mathlib.Data.List.Nodup
import Mathlib.Data.List.Pairwise
import YangScript.Proofs.Pieces

/-!
# The alternatives of a union

A union is written as one line of texts, and so is each union among its members. The alternatives of
a type are defined on its tree. The pieces of the written line are exactly these: none is lost where
members are sorted and told apart as texts, and none arises from what a value holds. Whether a piece
is written twice is a matter of the whole tree. A union drops a member that is rendered as another
one is, and looks no further into them; so the pieces are distinct where members that are rendered
differently share no alternative, and nowhere else.
-/

set_option autoImplicit false

namespace YangScript

namespace LeafType

mutual

/-- What a value of the type may be, each alternative in the text by which it is written. -/
def choices (strict : Bool) : LeafType → List String
  | t@⟨_, kind, values, _, members, _⟩ =>
    match kind with
    | .enumeration => if values.isEmpty then [Primitive.never.keyword] else values.map literal
    | .union => if members.isEmpty then [Primitive.never.keyword] else choicesAll strict members
    | _ => [(t.scriptType strict).render]

def choicesAll (strict : Bool) : List LeafType → List String
  | [] => []
  | t :: ts => choices strict t ++ choicesAll strict ts

end

end LeafType

/-! ## The pieces of one union -/

theorem uncut_keyword (p : Primitive) : Uncut p.keyword.toList := by
  apply uncut_of_all
  cases p <;> rfl

theorem pieces_never : pieces Primitive.never.keyword = [Primitive.never.keyword] :=
  pieces_of_uncut (uncut_keyword .never)

namespace ScriptType

variable {texts : List String} (h : ∀ text ∈ texts, EndsPiece text.toList)

include h

/-- The order in which a union writes its members does not matter for its pieces. -/
theorem pieces_unionOf (hne : texts ≠ []) :
    EndsPiece (unionOf texts).render.toList ∧
      (pieces (unionOf texts).render).Perm ((Text.distinct texts).flatMap pieces) := by
  have hperm := List.mergeSort_perm (Text.distinct texts) (fun a b => decide (a ≤ b))
  obtain ⟨text, htext⟩ := List.exists_mem_of_ne_nil texts hne
  have hkept : text ∈ Text.distinct texts := (Text.mem_distinct text texts).mpr htext
  have hsome : (Text.distinct texts).isEmpty = false :=
    List.isEmpty_eq_false_iff.mpr (List.ne_nil_of_mem hkept)
  rw [unionOf, render, renderUnion, hsome, if_neg (by simp)]
  generalize (Text.distinct texts).mergeSort (fun a b => decide (a ≤ b)) = sorted at hperm
  have hsorted : sorted ≠ [] := List.ne_nil_of_mem (hperm.mem_iff.mpr hkept)
  have hends : ∀ t ∈ sorted, EndsPiece t.toList := by
    intro t ht
    apply h
    rw [← Text.mem_distinct]
    exact hperm.mem_iff.mp ht
  have hcut : pieces (Text.join " | " sorted) = sorted.flatMap pieces := pieces_join hsorted hends
  rw [hcut]
  exact ⟨endsPiece_join hsorted hends, hperm.flatMap_right pieces⟩

theorem endsPiece_unionOf : EndsPiece (unionOf texts).render.toList := by
  by_cases hne : texts = []
  · rw [hne]
    exact (uncut_keyword .never).endsPiece
  · exact (pieces_unionOf h hne).1

theorem mem_pieces_unionOf_iff (hne : texts ≠ []) (piece : String) :
    piece ∈ pieces (unionOf texts).render ↔ ∃ text ∈ texts, piece ∈ pieces text := by
  rw [(pieces_unionOf h hne).2.mem_iff, List.mem_flatMap]
  simp only [Text.mem_distinct]

/-- A union compares its members as whole texts, so that only texts that differ can repeat a
piece. -/
theorem nodup_pieces_unionOf_iff :
    (pieces (unionOf texts).render).Nodup ↔
      (∀ text ∈ texts, (pieces text).Nodup) ∧
        ∀ a ∈ texts, ∀ b ∈ texts, a ≠ b → (pieces a).Disjoint (pieces b) := by
  by_cases hne : texts = []
  · have hnever : pieces (unionOf []).render = [Primitive.never.keyword] := pieces_never
    rw [hne, hnever]
    simp
  · rw [(pieces_unionOf h hne).2.nodup_iff, List.nodup_flatMap]
    have hsymm : Std.Symm (Function.onFun List.Disjoint pieces) :=
      ⟨fun _ _ hd _ hb ha => hd ha hb⟩
    constructor
    · rintro ⟨hnodup, hpairs⟩
      refine ⟨fun a ha => hnodup a ((Text.mem_distinct a texts).mpr ha), fun a ha b hb hab => ?_⟩
      exact hpairs.forall ((Text.mem_distinct a texts).mpr ha) ((Text.mem_distinct b texts).mpr hb)
        hab
    · rintro ⟨hnodup, hpairs⟩
      refine ⟨fun a ha => hnodup a ((Text.mem_distinct a texts).mp ha), ?_⟩
      apply (Text.nodup_distinct texts).pairwise_of_forall_ne
      intro a ha b hb hab
      exact hpairs a ((Text.mem_distinct a texts).mp ha) b ((Text.mem_distinct b texts).mp hb) hab

end ScriptType

namespace LeafType

/-! ## The pieces of a type -/

/-- Types that are neither enumerations nor unions are written without a bar. -/
theorem uncut_render (strict : Bool) {t : LeafType} (henum : t.kind ≠ .enumeration)
    (hunion : t.kind ≠ .union) : Uncut (t.scriptType strict).render.toList := by
  obtain ⟨name, kind, values, bits, members, path⟩ := t
  have hstand : Uncut (standIn strict).render.toList := uncut_keyword (standInKeyword strict)
  have hbits : Uncut (ScriptType.array .string).render.toList := uncut_of_all (by decide +kernel)
  cases kind
  case enumeration => exact absurd rfl henum
  case union => exact absurd rfl hunion
  case bits => exact hbits
  case leafRef => exact hstand
  case unknown => exact hstand
  all_goals exact uncut_keyword _

theorem choices_scalar (strict : Bool) {t : LeafType} (henum : t.kind ≠ .enumeration)
    (hunion : t.kind ≠ .union) : t.choices strict = [(t.scriptType strict).render] := by
  obtain ⟨name, kind, values, bits, members, path⟩ := t
  cases kind
  case enumeration => exact absurd rfl henum
  case union => exact absurd rfl hunion
  all_goals rfl

theorem endsPiece_literals (values : List String) :
    ∀ text ∈ values.map literal, EndsPiece text.toList := by
  intro text htext
  obtain ⟨value, -, rfl⟩ := List.mem_map.mp htext
  exact (uncut_literal value).endsPiece

mutual

theorem endsPiece_render (strict : Bool) : (t : LeafType) →
    EndsPiece (t.scriptType strict).render.toList
  | ⟨name, kind, values, bits, members, path⟩ => by
    by_cases henum : kind = .enumeration
    · subst henum
      exact ScriptType.endsPiece_unionOf (endsPiece_literals values)
    · by_cases hunion : kind = .union
      · subst hunion
        exact ScriptType.endsPiece_unionOf (endsPiece_alternatives strict members)
      · exact (uncut_render strict henum hunion).endsPiece

theorem endsPiece_alternatives (strict : Bool) : (ts : List LeafType) →
    ∀ text ∈ alternatives strict ts, EndsPiece text.toList
  | [] => by simp [alternatives]
  | t :: ts => by
    rw [alternatives, List.forall_mem_cons]
    exact ⟨endsPiece_render strict t, endsPiece_alternatives strict ts⟩

end

theorem mem_pieces_literals_iff {values : List String} (hne : values ≠ []) (piece : String) :
    piece ∈ pieces (ScriptType.ofLiterals values).render ↔ piece ∈ values.map literal := by
  have hmem := ScriptType.mem_pieces_unionOf_iff (endsPiece_literals values) (by simpa using hne)
    piece
  apply hmem.trans
  constructor
  · rintro ⟨text, htext, hpiece⟩
    obtain ⟨value, -, rfl⟩ := List.mem_map.mp htext
    rw [pieces_of_uncut (uncut_literal value), List.mem_singleton] at hpiece
    rw [hpiece]
    exact htext
  · intro hpiece
    obtain ⟨value, -, rfl⟩ := List.mem_map.mp hpiece
    refine ⟨literal value, hpiece, ?_⟩
    rw [pieces_of_uncut (uncut_literal value)]
    exact List.mem_singleton_self _

mutual

theorem mem_pieces_render_iff (strict : Bool) (piece : String) : (t : LeafType) →
    (piece ∈ pieces (t.scriptType strict).render ↔ piece ∈ t.choices strict)
  | ⟨name, kind, values, bits, members, path⟩ => by
    have hnever : piece ∈ pieces Primitive.never.keyword ↔ piece ∈ [Primitive.never.keyword] := by
      rw [pieces_never]
    by_cases henum : kind = .enumeration
    · subst henum
      by_cases hne : values = []
      · subst hne
        exact hnever
      · have hchoices : choices strict ⟨name, .enumeration, values, bits, members, path⟩ =
            values.map literal := if_neg (by simpa using hne)
        rw [hchoices]
        exact mem_pieces_literals_iff hne piece
    · by_cases hunion : kind = .union
      · subst hunion
        by_cases hne : members = []
        · subst hne
          exact hnever
        · have hchoices : choices strict ⟨name, .union, values, bits, members, path⟩ =
              choicesAll strict members := if_neg (by simpa using hne)
          have halternatives : alternatives strict members ≠ [] := by
            rw [alternatives_eq_map]
            simpa using hne
          rw [hchoices, ← mem_pieces_alternatives_iff strict piece members]
          exact ScriptType.mem_pieces_unionOf_iff (endsPiece_alternatives strict members)
            halternatives piece
      · rw [choices_scalar strict henum hunion, pieces_of_uncut (uncut_render strict henum hunion)]

theorem mem_pieces_alternatives_iff (strict : Bool) (piece : String) : (ts : List LeafType) →
    ((∃ text ∈ alternatives strict ts, piece ∈ pieces text) ↔ piece ∈ choicesAll strict ts)
  | [] => by simp [alternatives, choicesAll]
  | t :: ts => by
    rw [alternatives, choicesAll, List.mem_append, ← mem_pieces_render_iff strict piece t,
      ← mem_pieces_alternatives_iff strict piece ts]
    simp only [List.mem_cons, exists_eq_or_imp]

end

end LeafType

/-- Nested unions neither lose nor invent alternatives: what stands between the bars of a type is
what a value of it may be, however deep the unions are nested and whatever the values hold. -/
theorem pieces_are_choices (t : LeafType) (strict : Bool) :
    Text.join bar (pieces (t.scriptType strict).render) = (t.scriptType strict).render ∧
      ∀ piece, piece ∈ pieces (t.scriptType strict).render ↔ piece ∈ t.choices strict :=
  ⟨join_pieces _, fun piece => t.mem_pieces_render_iff strict piece⟩

example : pieces (literal "a' | 'b") = ["'a\\' | \\'b'"] := by decide +kernel

/-! ## When no piece is repeated -/

namespace LeafType

/-- Members of the union that are rendered differently have no alternative in common. -/
def MembersApart (strict : Bool) (t : LeafType) : Prop :=
  ∀ u ∈ t.members, ∀ v ∈ t.members,
    (u.scriptType strict).render ≠ (v.scriptType strict).render →
      (u.choices strict).Disjoint (v.choices strict)

theorem alternatives_apart_iff (strict : Bool) (t : LeafType) :
    (∀ a ∈ alternatives strict t.members, ∀ b ∈ alternatives strict t.members, a ≠ b →
      (pieces a).Disjoint (pieces b)) ↔ t.MembersApart strict := by
  have hdisjoint : ∀ u v : LeafType,
      (pieces (u.scriptType strict).render).Disjoint (pieces (v.scriptType strict).render) ↔
        (u.choices strict).Disjoint (v.choices strict) := by
    intro u v
    simp only [List.Disjoint, mem_pieces_render_iff]
  constructor
  · intro h u hu v hv hne
    rw [← hdisjoint]
    exact h _ (mem_alternatives_iff.mpr ⟨u, hu, rfl⟩) _ (mem_alternatives_iff.mpr ⟨v, hv, rfl⟩) hne
  · intro h a ha b hb hne
    obtain ⟨u, hu, rfl⟩ := mem_alternatives_iff.mp ha
    obtain ⟨v, hv, rfl⟩ := mem_alternatives_iff.mp hb
    rw [hdisjoint]
    exact h u hu v hv hne

theorem nested_of_not_union {t : LeafType} (h : t.kind ≠ .union) : t.nested = [t] := by
  obtain ⟨name, kind, values, bits, members, path⟩ := t
  cases kind
  case union => exact absurd rfl h
  all_goals rfl

theorem nodup_pieces_literals (values : List String) :
    (pieces (ScriptType.ofLiterals values).render).Nodup := by
  rw [ScriptType.ofLiterals, ScriptType.nodup_pieces_unionOf_iff (endsPiece_literals values)]
  have hone : ∀ text ∈ values.map literal, pieces text = [text] := by
    intro text htext
    obtain ⟨value, -, rfl⟩ := List.mem_map.mp htext
    exact pieces_of_uncut (uncut_literal value)
  constructor
  · intro text htext
    rw [hone text htext]
    exact List.nodup_singleton text
  · intro a ha b hb hab
    rw [hone a ha, hone b hb]
    simpa using hab.symm

mutual

theorem nodup_pieces_render_iff (strict : Bool) : (t : LeafType) →
    ((pieces (t.scriptType strict).render).Nodup ↔
      ∀ u ∈ t.nested, u.kind = .union → u.MembersApart strict)
  | ⟨name, kind, values, bits, members, path⟩ => by
    by_cases hunion : kind = .union
    · subst hunion
      have hnested : nested ⟨name, .union, values, bits, members, path⟩ =
          ⟨name, .union, values, bits, members, path⟩ :: nestedAll members := rfl
      have hnodup := ScriptType.nodup_pieces_unionOf_iff (endsPiece_alternatives strict members)
      have happart := alternatives_apart_iff strict ⟨name, .union, values, bits, members, path⟩
      rw [hnested, List.forall_mem_cons, ← nodup_pieces_alternatives_iff strict members]
      apply hnodup.trans
      rw [happart, and_comm]
      simp only [forall_const]
    · rw [nested_of_not_union hunion]
      have hvacuous : ∀ u ∈ [(⟨name, kind, values, bits, members, path⟩ : LeafType)],
          u.kind = .union → u.MembersApart strict := by
        intro u hu hkind
        obtain rfl := List.mem_singleton.mp hu
        exact absurd hkind hunion
      apply iff_of_true _ hvacuous
      by_cases henum : kind = .enumeration
      · subst henum
        exact nodup_pieces_literals values
      · rw [pieces_of_uncut (uncut_render strict henum hunion)]
        exact List.nodup_singleton _

theorem nodup_pieces_alternatives_iff (strict : Bool) : (ts : List LeafType) →
    ((∀ text ∈ alternatives strict ts, (pieces text).Nodup) ↔
      ∀ u ∈ nestedAll ts, u.kind = .union → u.MembersApart strict)
  | [] => by simp [alternatives, nestedAll]
  | t :: ts => by
    rw [alternatives, List.forall_mem_cons, nodup_pieces_render_iff strict t,
      nodup_pieces_alternatives_iff strict ts, nestedAll, List.forall_mem_append]

end

theorem nodup_of_scriptType_union {strict : Bool} {t : LeafType} {members : List String}
    (h : t.scriptType strict = .union members) : members.Nodup := by
  obtain ⟨name, kind, values, bits, ms, path⟩ := t
  have hnot : ∀ p : Primitive, ScriptType.primitive p ≠ .union members := by simp
  cases kind
  case enumeration =>
    rw [← ScriptType.union.inj h]
    exact Text.nodup_distinct _
  case union =>
    rw [← ScriptType.union.inj h]
    exact Text.nodup_distinct _
  case bits => exact absurd h (by simp [scriptType])
  all_goals exact absurd h (hnot _)

end LeafType

/-- Every union keeps each text once, and the pieces of a rendered type are distinct if and only if
no union in it has members that are rendered differently and share an alternative. -/
theorem nodup_pieces_iff_apart (t : LeafType) (strict : Bool) :
    (∀ u ∈ t.nested, ∀ members, u.scriptType strict = .union members → members.Nodup) ∧
      ((pieces (t.scriptType strict).render).Nodup ↔
        ∀ u ∈ t.nested, u.kind = .union → u.MembersApart strict) :=
  ⟨fun _ _ _ h => LeafType.nodup_of_scriptType_union h, t.nodup_pieces_render_iff strict⟩

/-- Members that stand in order already are written as they stand. -/
theorem renderUnion_of_sorted {members : List String} (hne : members ≠ [])
    (h : members.Pairwise (fun a b => decide (a ≤ b) = true)) :
    renderUnion members = Text.join bar members := by
  rw [renderUnion, if_neg (by simpa using hne), List.mergeSort_of_pairwise h]
  rfl

/-- The inner union offers text as well, but it is written as `number | string`. -/
theorem nested_union_repeats_piece :
    let text := LeafType.ofKind .string
    let inner := { LeafType.ofKind .union with members := [LeafType.ofKind .int8, text] }
    let outer := { LeafType.ofKind .union with members := [inner, text] }
    (outer.scriptType true).render = "number | string | string" ∧
      pieces (outer.scriptType true).render = ["number", "string", "string"] ∧
      ¬ (pieces (outer.scriptType true).render).Nodup := by
  intro text inner outer
  have hinner : (inner.scriptType true).render = "number | string" := by
    show renderUnion ["number", "string"] = _
    rw [renderUnion_of_sorted (by simp) (by simp)]
    rfl
  have hrender : (outer.scriptType true).render = "number | string | string" := by
    show renderUnion (Text.distinct [(inner.scriptType true).render, "string"]) = _
    rw [hinner]
    show renderUnion ["number | string", "string"] = _
    rw [renderUnion_of_sorted (by simp) (by simp)]
    rfl
  rw [hrender]
  decide +kernel

end YangScript
