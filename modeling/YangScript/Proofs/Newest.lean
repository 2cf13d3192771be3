import YangScript.Document.File
import YangScript.Schema.Registry

/-!
# A registry holds the newest of what came

Dates are compared so that no date is below every date. Of the documents of one name, the newest
is the first of those that no other of them is newer than. A registry into which documents are
put one after another holds exactly the newest of every name.
-/

set_option autoImplicit false

namespace YangScript

theorem isNewer_irrefl (a : Option String) : isNewer a a = false := by
  cases a with
  | none => rfl
  | some a => simp [isNewer]

theorem isNewer_asymm {a b : Option String} (h : isNewer a b = true) : isNewer b a = false := by
  cases a with
  | none => simp [isNewer] at h
  | some a =>
    cases b with
    | none => rfl
    | some b =>
      have hlt : b < a := by simpa [isNewer] using h
      simpa [isNewer] using String.lt_asymm hlt

/-- What is newer than one is newer than any that the one is not older than. -/
theorem isNewer_of_not_newer {a b c : Option String} (h : isNewer a b = true)
    (h' : isNewer c b = false) : isNewer a c = true := by
  cases a with
  | none => simp [isNewer] at h
  | some a =>
    cases c with
    | none => rfl
    | some c =>
      cases b with
      | none => simp [isNewer] at h'
      | some b =>
        have hlt : b < a := by simpa [isNewer] using h
        have hnot : ¬ b < c := by simpa [isNewer] using h'
        have hca : c < a := by
          by_cases hcb : c < b
          · exact Trans.trans hcb hlt
          · have heq : c = b := Std.Trichotomous.trichotomous c b hcb hnot
            rw [heq]
            exact hlt
        simpa [isNewer] using hca

/-- The newest document of its name: newer than those before it, not older than those after it. -/
def Newest (docs : List (String × Module)) (text : String) (m : Module) : Prop :=
  ∃ before after, docs = before ++ (text, m) :: after ∧
    (∀ d ∈ before, d.2.name = m.name → isNewer m.current d.2.current = true) ∧
    ∀ d ∈ after, d.2.name = m.name → isNewer d.2.current m.current = false

namespace Newest

variable {docs : List (String × Module)} {text text' : String} {m m' : Module}

theorem mem (h : Newest docs text m) : (text, m) ∈ docs := by
  obtain ⟨before, after, rfl, -⟩ := h
  simp

theorem not_newer (h : Newest docs text m) :
    ∀ d ∈ docs, d.2.name = m.name → isNewer d.2.current m.current = false := by
  obtain ⟨before, after, rfl, hbefore, hafter⟩ := h
  intro d hd hname
  rcases List.mem_append.mp hd with hd | hd
  · exact isNewer_asymm (hbefore d hd hname)
  · rcases List.mem_cons.mp hd with rfl | hd
    · exact isNewer_irrefl _
    · exact hafter d hd hname

/-- Of two documents of one name, the earlier cannot keep up with the later if that is newer. -/
theorem not_both {before middle after : List (String × Module)} (hname : m.name = m'.name)
    (hnewer : ∀ d ∈ before ++ (text, m) :: middle, d.2.name = m'.name →
      isNewer m'.current d.2.current = true)
    (hnot : ∀ d ∈ middle ++ (text', m') :: after, d.2.name = m.name →
      isNewer d.2.current m.current = false) : False := by
  have htrue := hnewer (text, m) (by simp) hname
  have hfalse := hnot (text', m') (by simp) hname.symm
  rw [htrue] at hfalse
  exact absurd hfalse (by decide)

/-- A name has at most one newest document. -/
theorem unique (h : Newest docs text m) (h' : Newest docs text' m') (hname : m.name = m'.name) :
    text = text' ∧ m = m' := by
  obtain ⟨before, after, rfl, hbefore, hafter⟩ := h
  obtain ⟨before', after', hdocs, hbefore', hafter'⟩ := h'
  have hsame : ∀ {x y : String × Module}, x = y → x.1 = y.1 ∧ x.2 = y.2 := by
    rintro x y rfl
    exact ⟨rfl, rfl⟩
  rcases List.append_eq_append_iff.mp hdocs with ⟨middle, hmiddle, htail⟩ | ⟨middle, hmiddle, htail⟩
  · cases middle with
    | nil => exact hsame (List.cons.inj htail).1
    | cons d middle =>
      obtain ⟨rfl, rfl⟩ := List.cons.inj htail
      rw [hmiddle] at hbefore'
      exact (not_both hname hbefore' hafter).elim
  · cases middle with
    | nil => exact hsame (List.cons.inj htail).1.symm
    | cons d middle =>
      obtain ⟨rfl, rfl⟩ := List.cons.inj htail
      rw [hmiddle] at hbefore
      exact (not_both hname.symm hbefore hafter').elim

theorem append (h : Newest docs text m) (d : String × Module)
    (hd : d.2.name = m.name → isNewer d.2.current m.current = false) :
    Newest (docs ++ [d]) text m := by
  obtain ⟨before, after, rfl, hbefore, hafter⟩ := h
  refine ⟨before, after ++ [d], by simp, hbefore, ?_⟩
  intro x hx
  rcases List.mem_append.mp hx with hx | hx
  · exact hafter x hx
  · rw [List.mem_singleton.mp hx]
    exact hd

end Newest

namespace Registry

/-- A registry holds the newest of some documents, and one of every name. -/
structure Holds (docs : List (String × Module)) (r : Registry) : Prop where
  newest : ∀ {n m}, r.get? n = some m → m.name = n ∧ ∃ text, Newest docs text m
  every : ∀ d ∈ docs, (r.get? d.2.name).isSome = true

theorem holds_empty : Holds [] empty where
  newest h := by simp [get?, empty, Keyed.find?] at h
  every _ h := by simp at h

/-- One more document, whether or not it is accepted. -/
theorem Holds.insert {docs : List (String × Module)} {r : Registry} (h : Holds docs r)
    (text : String) (m : Module) : Holds (docs ++ [(text, m)]) (r.insert m) := by
  have hother : ∀ {n}, n ≠ m.name → (r.insert m).get? n = r.get? n :=
    fun hn => get?_insert_ne r m _ hn
  have hname : ∃ held, (r.insert m).get? m.name = some held ∧ held.name = m.name ∧
      ∃ text', Newest (docs ++ [(text, m)]) text' held := by
    cases haccepts : r.accepts m with
    | true =>
      refine ⟨m, get?_insert_accepted r m haccepts, rfl, text, docs, [], rfl, ?_, by simp⟩
      intro d hd hdname
      obtain ⟨held, hheld⟩ := Option.isSome_iff_exists.mp (h.every d hd)
      rw [hdname] at hheld
      obtain ⟨hn, text', hnewest⟩ := h.newest hheld
      rw [accepts, hheld] at haccepts
      exact isNewer_of_not_newer haccepts (hnewest.not_newer d hd (hdname.trans hn.symm))
    | false =>
      rw [insert_refused r m haccepts]
      rw [accepts] at haccepts
      cases hheld : r.get? m.name with
      | none =>
        rw [hheld] at haccepts
        exact absurd haccepts (by simp)
      | some held =>
        rw [hheld] at haccepts
        obtain ⟨hn, text', hnewest⟩ := h.newest hheld
        exact ⟨held, rfl, hn, text', hnewest.append _ (fun _ => haccepts)⟩
  obtain ⟨held, hheld, hheldname, htext⟩ := hname
  constructor
  · intro n m' hget
    by_cases hn : n = m.name
    · rw [hn, hheld] at hget
      rw [← Option.some.inj hget]
      exact ⟨hheldname.trans hn.symm, htext⟩
    · rw [hother hn] at hget
      obtain ⟨hn', text', hnewest⟩ := h.newest hget
      refine ⟨hn', text', hnewest.append _ fun he => ?_⟩
      exact absurd (hn'.symm.trans he.symm) hn
  · intro d hd
    by_cases hn : d.2.name = m.name
    · rw [hn, hheld]
      rfl
    · rw [hother hn]
      rcases List.mem_append.mp hd with hd | hd
      · exact h.every d hd
      · rw [List.mem_singleton.mp hd] at hn
        exact absurd rfl hn

/-- Documents put in one after another. -/
theorem Holds.insertAll {docs : List (String × Module)} {r : Registry} (h : Holds docs r)
    (more : List (String × Module)) :
    Holds (docs ++ more) (r.insertAll (more.map Prod.snd)) := by
  induction more generalizing docs r with
  | nil =>
    rw [List.append_nil]
    exact h
  | cons d more ih =>
    have hd := ih (h.insert d.1 d.2)
    rw [List.append_assoc] at hd
    exact hd

/-- The module held under a name is the newest of that name. -/
theorem Holds.get?_iff {docs : List (String × Module)} {r : Registry} (h : Holds docs r)
    (n : String) (m : Module) :
    r.get? n = some m ↔ m.name = n ∧ ∃ text, Newest docs text m := by
  constructor
  · exact h.newest
  · rintro ⟨rfl, text, hnewest⟩
    obtain ⟨held, hheld⟩ := Option.isSome_iff_exists.mp (h.every _ hnewest.mem)
    obtain ⟨hname, text', hnewest'⟩ := h.newest hheld
    rw [hheld, (hnewest'.unique hnewest hname).2]

/-- The modules held are the newest, in the order of their names. -/
theorem Holds.mem_modules_iff {docs : List (String × Module)} {r : Registry} (h : Holds docs r)
    (m : Module) : m ∈ r.modules ↔ ∃ text, Newest docs text m := by
  have hget : m ∈ r.modules ↔ r.get? m.name = some m :=
    Keyed.mem_iff_find? r.sorted
  rw [hget, h.get?_iff]
  simp

end Registry

end YangScript
