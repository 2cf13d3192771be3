import YangScript.Schema.BaseKind

/-!
# Types of leaves

A leaf type has a name of its own, which need not be the keyword of its kind, and the parts that
its kind calls for: values of an enumeration, names of bits, members of a union, the path of a
leaf reference.
-/

set_option autoImplicit false

namespace YangScript

structure LeafType where
  name : String
  kind : BaseKind
  values : List String
  bits : List String
  members : List LeafType
  path : Option String

namespace LeafType

/-- The bare type of a kind, named after its keyword. -/
def ofKind (kind : BaseKind) : LeafType :=
  { name := kind.keyword, kind, values := [], bits := [], members := [], path := none }

mutual

/-- The type itself and, if it is a union, all types nested in its members. -/
def nested : LeafType → List LeafType
  | t@⟨_, kind, _, _, members, _⟩ =>
    match kind with
    | .union => t :: nestedAll members
    | _ => [t]

def nestedAll : List LeafType → List LeafType
  | [] => []
  | t :: ts => nested t ++ nestedAll ts

end

mutual

def decEq : (a b : LeafType) → Decidable (a = b)
  | ⟨n₁, k₁, v₁, b₁, m₁, p₁⟩, ⟨n₂, k₂, v₂, b₂, m₂, p₂⟩ =>
    if hflat : n₁ = n₂ ∧ k₁ = k₂ ∧ v₁ = v₂ ∧ b₁ = b₂ ∧ p₁ = p₂ then
      match decEqList m₁ m₂ with
      | isTrue hm => isTrue (by simp [hflat, hm])
      | isFalse hm => isFalse (by simp [hm])
    else isFalse (by simpa using fun hn hk hv hb _ hp => hflat ⟨hn, hk, hv, hb, hp⟩)

def decEqList : (as bs : List LeafType) → Decidable (as = bs)
  | [], [] => isTrue rfl
  | [], _ :: _ => isFalse (by simp)
  | _ :: _, [] => isFalse (by simp)
  | a :: as, b :: bs =>
    match decEq a b, decEqList as bs with
    | isTrue ha, isTrue hs => isTrue (by rw [ha, hs])
    | isFalse ha, _ => isFalse (by simp [ha])
    | _, isFalse hs => isFalse (by simp [hs])

end

instance : DecidableEq LeafType := decEq

end LeafType

end YangScript
