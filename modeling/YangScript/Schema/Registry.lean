import YangScript.Schema.Module

/-!
# The newest revision of every module

A registry holds at most one module of a name. A module enters if its name is new or if its
current revision is later than that of the module held; on a tie the earlier arrival stays.
-/

set_option autoImplicit false

namespace YangScript

structure Registry where
  modules : List Module
  sorted : Keyed.Sorted Module.name modules

namespace Registry

def empty : Registry := ⟨[], Keyed.sorted_nil Module.name⟩

def get? (r : Registry) (name : String) : Option Module :=
  Keyed.find? Module.name name r.modules

def size (r : Registry) : Nat := r.modules.length

/-- Whether `insert` stores the module. -/
def accepts (r : Registry) (m : Module) : Bool :=
  match r.get? m.name with
  | none => true
  | some held => isNewer m.current held.current

def insert (r : Registry) (m : Module) : Registry :=
  if r.accepts m then
    ⟨Keyed.insert Module.name m r.modules, Keyed.sorted_insert Module.name m r.modules r.sorted⟩
  else r

def insertAll (r : Registry) (ms : List Module) : Registry := ms.foldl insert r

theorem get?_insert_accepted (r : Registry) (m : Module) (h : r.accepts m = true) :
    (r.insert m).get? m.name = some m := by
  rw [insert, if_pos h]
  exact Keyed.find?_insert_self Module.name m r.modules

theorem insert_refused (r : Registry) (m : Module) (h : r.accepts m = false) : r.insert m = r := by
  simp [insert, h]

theorem get?_insert_ne (r : Registry) (m : Module) (name : String) (h : name ≠ m.name) :
    (r.insert m).get? name = r.get? name := by
  rw [insert]
  split
  · exact Keyed.find?_insert_ne Module.name name m r.modules h
  · rfl

end Registry

end YangScript
