import YangScript.Schema.Entry

/-!
# Resolved modules

A module has a name, the dates of its revisions in the order of their declaration, and its
top-level entries in the order of their names. A submodule names the module it belongs to, and
has no root entry of its own.
-/

set_option autoImplicit false

namespace YangScript

structure Module where
  name : String
  uri : Option String
  shortName : Option String
  parent : Option String
  revisions : List String
  description : Option String
  entries : List Entry

/-- The greatest of some dates. Dates of one width compare as text. -/
def newest : List String → Option String
  | [] => none
  | date :: dates =>
    match newest dates with
    | none => some date
    | some later => if later < date then some date else some later

theorem newest_eq_none_iff (dates : List String) : newest dates = none ↔ dates = [] := by
  cases dates with
  | nil => simp [newest]
  | cons date dates =>
    rw [newest]
    cases newest dates with
    | none => simp
    | some later =>
      dsimp only
      split <;> simp

/-- The newest of some dates is one of them, and none of them is later. -/
theorem greatest_of_newest {dates : List String} {date : String} (h : newest dates = some date) :
    date ∈ dates ∧ ∀ d ∈ dates, d ≤ date := by
  induction dates generalizing date with
  | nil => exact absurd h (by simp [newest])
  | cons first dates ih =>
    rw [newest] at h
    rw [List.forall_mem_cons]
    cases hrest : newest dates with
    | none =>
      rw [hrest] at h
      obtain rfl := Option.some.inj h
      rw [(newest_eq_none_iff dates).mp hrest]
      exact ⟨List.mem_singleton_self _, String.le_refl _, by simp⟩
    | some later =>
      rw [hrest] at h
      dsimp only at h
      obtain ⟨hmem, hall⟩ := ih hrest
      split at h
      · rename_i hlt
        obtain rfl := Option.some.inj h
        have hle := String.not_lt.mp (String.lt_asymm hlt)
        exact ⟨List.mem_cons_self, String.le_refl _, fun d hd => String.le_trans (hall d hd) hle⟩
      · rename_i hnot
        obtain rfl := Option.some.inj h
        exact ⟨List.mem_cons_of_mem _ hmem, String.not_lt.mp hnot, hall⟩

/-- Any date is newer than none. -/
def isNewer : Option String → Option String → Bool
  | none, _ => false
  | some _, none => true
  | some a, some b => decide (b < a)

namespace Module

def ofName (name : String) : Module :=
  { name, uri := none, shortName := none, parent := none, revisions := [], description := none,
    entries := [] }

def isSubmodule (m : Module) : Bool := m.parent.isSome

def current (m : Module) : Option String := newest m.revisions

def child? (m : Module) (name : String) : Option Entry :=
  Keyed.find? Entry.name name m.entries

def insert (m : Module) (e : Entry) : Module :=
  { m with entries := Keyed.insert Entry.name e m.entries }

def insertAll (m : Module) (entries : List Entry) : Module :=
  entries.foldl insert m

/-- The directory of all top-level entries; a submodule has none. -/
def root? (m : Module) : Option Entry :=
  if m.isSubmodule then none
  else some { Entry.directory m.name with description := m.description, children := m.entries }

theorem child?_insert_self (m : Module) (e : Entry) :
    (m.insert e).child? e.name = some e :=
  Keyed.find?_insert_self Entry.name e m.entries

theorem child?_insert_ne (m : Module) (e : Entry) (name : String) (h : name ≠ e.name) :
    (m.insert e).child? name = m.child? name :=
  Keyed.find?_insert_ne Entry.name name e m.entries h

end Module

end YangScript
