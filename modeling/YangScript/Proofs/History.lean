import YangScript.Proofs.Newest
import YangScript.Text.Join

/-!
# A registry after any history

Modules come in one after another, and nothing is assumed of them. Under every name a registry
then holds the first of the newest that came, and what it answered to each arrival is told by the
arrivals before it. If no two modules of one name are equally new, their order is forgotten.
-/

set_option autoImplicit false

namespace YangScript

theorem isNewer_iff_lt (a b : Option String) : isNewer a b = true ↔ b < a := by
  cases a with
  | none => cases b <;> simp [isNewer]
  | some a => cases b <;> simp [isNewer]

theorem not_isNewer_iff (a b : Option String) : isNewer a b = false ↔ ¬ b < a := by
  rw [← isNewer_iff_lt, Bool.not_eq_true]

instance decidableDateLt (a b : Option String) : Decidable (a < b) :=
  decidable_of_iff _ (isNewer_iff_lt b a)

theorem date_lt_of_not_lt {a b : Option String} (h : ¬ a < b) (hne : b ≠ a) : b < a := by
  cases a with
  | none =>
    cases b with
    | none => exact absurd rfl hne
    | some b => exact absurd trivial h
  | some a =>
    cases b with
    | none => trivial
    | some b =>
      have hba : b < a := by
        refine Decidable.byContradiction fun hnot => hne ?_
        exact congrArg some (Std.Trichotomous.trichotomous (r := (· < ·)) b a hnot h)
      exact hba

/-- The first among the modules of its name that none of them is newer than. -/
def FirstNewest (ms : List Module) (m : Module) : Prop :=
  ∃ before after, ms = before ++ m :: after ∧
    (∀ b ∈ before, b.name = m.name → b.current < m.current) ∧
    ∀ a ∈ after, a.name = m.name → ¬ m.current < a.current

/-- Whether a document is the newest of its name is a question about the modules alone. -/
theorem exists_newest_iff (docs : List (String × Module)) (m : Module) :
    (∃ text, Newest docs text m) ↔ FirstNewest (docs.map Prod.snd) m := by
  constructor
  · rintro ⟨text, before, after, rfl, hbefore, hafter⟩
    refine ⟨before.map Prod.snd, after.map Prod.snd, by simp, ?_, ?_⟩
    · intro b hb hname
      obtain ⟨d, hd, rfl⟩ := List.mem_map.mp hb
      exact (isNewer_iff_lt _ _).mp (hbefore d hd hname)
    · intro a ha hname
      obtain ⟨d, hd, rfl⟩ := List.mem_map.mp ha
      exact (not_isNewer_iff _ _).mp (hafter d hd hname)
  · rintro ⟨before, after, hdocs, hbefore, hafter⟩
    obtain ⟨front, back, rfl, rfl, hback⟩ := List.map_eq_append_iff.mp hdocs
    obtain ⟨⟨text, m'⟩, rest, rfl, rfl, rfl⟩ := List.map_eq_cons_iff.mp hback
    refine ⟨text, front, rest, rfl, ?_, ?_⟩
    · intro d hd hname
      exact (isNewer_iff_lt _ _).mpr (hbefore d.2 (List.mem_map_of_mem hd) hname)
    · intro d hd hname
      exact (not_isNewer_iff _ _).mpr (hafter d.2 (List.mem_map_of_mem hd) hname)

/-- Some modules as documents, of whose texts nothing is known. -/
def untitled (ms : List Module) : List (String × Module) := ms.map (Prod.mk "")

theorem map_snd_untitled (ms : List Module) : (untitled ms).map Prod.snd = ms := by
  simp [untitled, Function.comp_def]

theorem firstNewest_iff (ms : List Module) (m : Module) :
    FirstNewest ms m ↔ ∃ text, Newest (untitled ms) text m := by
  rw [exists_newest_iff, map_snd_untitled]

namespace FirstNewest

variable {ms : List Module} {m : Module}

theorem mem (h : FirstNewest ms m) : m ∈ ms := by
  obtain ⟨before, after, rfl, -⟩ := h
  simp

theorem not_lt (h : FirstNewest ms m) : ∀ b ∈ ms, b.name = m.name → ¬ m.current < b.current := by
  obtain ⟨text, hnewest⟩ := (firstNewest_iff ms m).mp h
  intro b hb hname
  have hb' : ("", b) ∈ untitled ms := List.mem_map_of_mem hb
  exact (not_isNewer_iff _ _).mp (hnewest.not_newer ("", b) hb' hname)

/-- What is newer than the newest is newer than all modules of its name. -/
theorem lt_of_lt (h : FirstNewest ms m) {date : Option String} (hlt : m.current < date) :
    ∀ b ∈ ms, b.name = m.name → b.current < date := by
  intro b hb hname
  rw [← isNewer_iff_lt] at hlt ⊢
  exact isNewer_of_not_newer hlt ((not_isNewer_iff _ _).mpr (h.not_lt b hb hname))

end FirstNewest

/-- No two modules of one name have the same current revision. -/
def Untied (ms : List Module) : Prop :=
  ms.Pairwise (fun a b => a.name = b.name → a.current ≠ b.current)

theorem Untied.perm {ms ms' : List Module} (h : Untied ms) (hp : ms.Perm ms') : Untied ms' := by
  refine (hp.pairwise_iff ?_).mp h
  intro a b hab hname hcurrent
  exact hab hname.symm hcurrent.symm

/-- Without ties the newest need not be told apart by its place. -/
theorem firstNewest_iff_of_untied {ms : List Module} (h : Untied ms) (m : Module) :
    FirstNewest ms m ↔ m ∈ ms ∧ ∀ b ∈ ms, b.name = m.name → ¬ m.current < b.current := by
  constructor
  · intro hm
    exact ⟨hm.mem, hm.not_lt⟩
  · rintro ⟨hm, hmax⟩
    obtain ⟨before, after, rfl⟩ := List.append_of_mem hm
    refine ⟨before, after, rfl, ?_, fun a ha => hmax a (by simp [ha])⟩
    intro b hb hname
    have hne := (List.pairwise_append.mp h).2.2 b hb m List.mem_cons_self hname
    exact date_lt_of_not_lt (hmax b (by simp [hb]) hname) hne

namespace Registry

/-- The registry of some modules that came in one after another. -/
def ofHistory (ms : List Module) : Registry := empty.insertAll ms

theorem holds_ofHistory (ms : List Module) : Holds (untitled ms) (ofHistory ms) := by
  have h := holds_empty.insertAll (untitled ms)
  rw [List.nil_append, map_snd_untitled] at h
  exact h

/-- Under every name stands the first of the newest. -/
theorem get?_ofHistory_eq_some (ms : List Module) (n : String) (m : Module) :
    (ofHistory ms).get? n = some m ↔ m.name = n ∧ FirstNewest ms m := by
  rw [(holds_ofHistory ms).get?_iff, firstNewest_iff]

theorem get?_ofHistory_eq_none (ms : List Module) (n : String) :
    (ofHistory ms).get? n = none ↔ ∀ m ∈ ms, m.name ≠ n := by
  constructor
  · rintro hnone m hm rfl
    have hsome := (holds_ofHistory ms).every ("", m) (List.mem_map_of_mem hm)
    rw [hnone] at hsome
    exact absurd hsome (by decide)
  · intro h
    cases hget : (ofHistory ms).get? n with
    | none => rfl
    | some m =>
      obtain ⟨hname, hfirst⟩ := (get?_ofHistory_eq_some ms n m).mp hget
      exact absurd hname (h m hfirst.mem)

/-- An arrival is stored if it is newer than all that came before it under its name. -/
theorem accepts_ofHistory_iff (ms : List Module) (m : Module) :
    (ofHistory ms).accepts m = true ↔ ∀ b ∈ ms, b.name = m.name → b.current < m.current := by
  rw [accepts]
  cases hget : (ofHistory ms).get? m.name with
  | none =>
    have hnew := (get?_ofHistory_eq_none ms m.name).mp hget
    exact ⟨fun _ b hb hname => absurd hname (hnew b hb), fun _ => rfl⟩
  | some held =>
    obtain ⟨hname, hfirst⟩ := (get?_ofHistory_eq_some ms m.name held).mp hget
    change isNewer m.current held.current = true ↔ _
    rw [isNewer_iff_lt]
    constructor
    · intro hlt b hb hbname
      exact hfirst.lt_of_lt hlt b hb (hbname.trans hname.symm)
    · intro h
      exact h held hfirst.mem hname

theorem mem_modules_iff (r : Registry) (m : Module) : m ∈ r.modules ↔ r.get? m.name = some m :=
  Keyed.mem_iff_find? r.sorted

theorem mem_names_ofHistory (ms : List Module) (n : String) :
    n ∈ (ofHistory ms).modules.map Module.name ↔ n ∈ ms.map Module.name := by
  constructor
  · intro hn
    obtain ⟨m, hm, rfl⟩ := List.mem_map.mp hn
    rw [mem_modules_iff, get?_ofHistory_eq_some] at hm
    exact List.mem_map_of_mem hm.2.mem
  · intro hn
    cases hget : (ofHistory ms).get? n with
    | none =>
      obtain ⟨m, hm, hname⟩ := List.mem_map.mp hn
      exact absurd hname ((get?_ofHistory_eq_none ms n).mp hget m hm)
    | some m =>
      obtain ⟨rfl, -⟩ := (get?_ofHistory_eq_some ms n m).mp hget
      exact List.mem_map_of_mem ((mem_modules_iff _ m).mpr hget)

theorem size_ofHistory (ms : List Module) :
    (ofHistory ms).size = (Text.distinct (ms.map Module.name)).length := by
  have hnodup : ((ofHistory ms).modules.map Module.name).Nodup := (ofHistory ms).sorted.nodup
  have hperm : ((ofHistory ms).modules.map Module.name).Perm
      (Text.distinct (ms.map Module.name)) := by
    refine (List.perm_ext_iff_of_nodup hnodup (Text.nodup_distinct _)).mpr fun n => ?_
    rw [mem_names_ofHistory, Text.mem_distinct]
  rw [← hperm.length_eq, List.length_map]
  rfl

/-- A registry is known by what it holds under every name. -/
theorem eq_of_get? {r r' : Registry} (h : ∀ n, r.get? n = r'.get? n) : r = r' := by
  have hmodules : r.modules = r'.modules := by
    refine r.sorted.eq_of_mem_iff r'.sorted fun m => ?_
    rw [mem_modules_iff, mem_modules_iff, h]
  cases r
  cases r'
  simpa using hmodules

/-- What came in without ties may have come in any order. -/
theorem ofHistory_perm {ms ms' : List Module} (h : Untied ms) (hp : ms.Perm ms') :
    ofHistory ms' = ofHistory ms := by
  apply eq_of_get?
  intro n
  ext m
  rw [get?_ofHistory_eq_some, get?_ofHistory_eq_some,
    firstNewest_iff_of_untied h, firstNewest_iff_of_untied (h.perm hp)]
  simp only [hp.mem_iff]

/-- What a registry holds, what it answered to every arrival, and how its modules are listed. An
arrival whose name is new has nothing before it that it must be newer than. -/
theorem newest_kept_through_history (ms : List Module) :
    (∀ n, ((ofHistory ms).get? n = none ↔ ∀ m ∈ ms, m.name ≠ n) ∧
      ∀ m, (ofHistory ms).get? n = some m ↔ m.name = n ∧ FirstNewest ms m) ∧
    (∀ before m after, ms = before ++ m :: after →
      ((ofHistory before).accepts m = true ↔
        ∀ b ∈ before, b.name = m.name → b.current < m.current)) ∧
    (((ofHistory ms).modules.map Module.name).Pairwise (· < ·) ∧
      (∀ n, n ∈ (ofHistory ms).modules.map Module.name ↔ n ∈ ms.map Module.name) ∧
      (∀ m, m ∈ (ofHistory ms).modules ↔ (ofHistory ms).get? m.name = some m) ∧
      (ofHistory ms).size = (Text.distinct (ms.map Module.name)).length) ∧
    (Untied ms → ∀ ms', ms.Perm ms' → ofHistory ms' = ofHistory ms) := by
  refine ⟨?held, ?answers, ?listed, ?orders⟩
  case held =>
    intro n
    exact ⟨get?_ofHistory_eq_none ms n, get?_ofHistory_eq_some ms n⟩
  case answers =>
    intro before m after _
    exact accepts_ofHistory_iff before m
  case listed =>
    have hsorted : ((ofHistory ms).modules.map Module.name).Pairwise (· < ·) :=
      List.pairwise_map.mpr (ofHistory ms).sorted
    exact ⟨hsorted, mem_names_ofHistory ms, mem_modules_iff (ofHistory ms), size_ofHistory ms⟩
  case orders =>
    intro huntied ms' hp
    exact ofHistory_perm huntied hp

def dated (name : String) (dates : List String) : Module :=
  { Module.ofName name with revisions := dates }

/-- Four arrivals under two names, in one order and in the opposite one. -/
theorem newest_kept_through_history_dated :
    let ms := [dated "a" ["2023-01-01"], dated "b" [], dated "a" ["2023-01-01", "2024-02-02"],
      dated "a" []]
    (ofHistory ms).get? "a" = some (dated "a" ["2023-01-01", "2024-02-02"]) ∧
      (ofHistory (ms.take 3)).accepts (dated "a" []) = false ∧
      (ofHistory ms).size = 2 ∧ ofHistory ms.reverse = ofHistory ms := by
  intro ms
  obtain ⟨hheld, hanswers, ⟨-, -, -, hsize⟩, horders⟩ := newest_kept_through_history ms
  have huntied : Untied ms := by
    unfold Untied
    decide
  refine ⟨?_, ?_, hsize, horders huntied ms.reverse (List.reverse_perm ms).symm⟩
  · refine ((hheld "a").2 _).mpr ⟨rfl, ms.take 2, ms.drop 3, rfl, by decide, by decide⟩
  · rw [← Bool.not_eq_true, hanswers (ms.take 3) _ [] rfl]
    decide

end Registry

end YangScript
