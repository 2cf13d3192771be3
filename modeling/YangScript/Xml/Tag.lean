import YangScript.Text.Blank
import YangScript.Text.Cut
import YangScript.Xml.Error

/-!
# Tags and their attributes

The content of a tag is its name, up to the first blank, and what follows the name. Attributes
are read from what follows, one after another, and only when they are asked for: a tag nobody
looks into may hold anything. The first fault ends the reading, and what was read before it
remains known.
-/

set_option autoImplicit false

namespace YangScript.Xml

open YangScript.Text

structure Tag where
  name : String
  rest : List Char

def Tag.ofContent (content : List Char) : Tag :=
  { name := String.ofList (content.takeWhile (fun c => !isBlank c))
    rest := content.dropWhile (fun c => !isBlank c) }

structure Attribute where
  key : String
  value : String
  deriving DecidableEq, Repr

/-- The attributes of a tag up to its first fault, if it has one. -/
structure AttributeRun where
  read : List Attribute
  fault : Option AttributeFault

def isQuote (c : Char) : Bool := c == '\x22' || c == '\x27'

/-- Size in bytes. -/
def byteSize : List Char → Nat
  | [] => 0
  | c :: cs => c.utf8Size + byteSize cs

inductive AttributeStep where
  | done
  | fault (f : AttributeFault)
  | found (a : Attribute) (position : Nat) (rest : List Char)

def AttributeStep.ofValue (size : Nat) (key : String) (position : Nat) (cs : List Char) :
    AttributeStep :=
  match cs.dropWhile isBlank with
  | [] => .fault (.missingValue size)
  | q :: value =>
    if isQuote q then
      match cut? [q] value with
      | none => .fault (.openValue size q)
      | some (v, rest) => .found ⟨key, String.ofList v⟩ position rest
    else .fault (.unquotedValue (size - byteSize (q :: value)))

/-- Reads one attribute from the end `cs` of a tag of `size` bytes. The keys in `seen` stand with
the positions at which they were read. -/
def AttributeStep.ofText (size : Nat) (seen : List (String × Nat)) (cs : List Char) :
    AttributeStep :=
  match cs.dropWhile isBlank with
  | [] => .done
  | c :: more =>
    let position := size - byteSize (c :: more)
    let inKey := fun d => !(d == '=' || isBlank d)
    let key := String.ofList (c :: more.takeWhile inKey)
    match (more.dropWhile inKey).dropWhile isBlank with
    | [] => .fault (.missingEquals size)
    | e :: after =>
      if e = '=' then
        match seen.lookup key with
        | some first => .fault (.repeated position first)
        | none => .ofValue size key position after
      else .fault (.missingEquals (size - byteSize (e :: after)))

theorem length_dropWhile_le (p : Char → Bool) (cs : List Char) :
    (cs.dropWhile p).length ≤ cs.length :=
  (List.dropWhile_sublist p).length_le

theorem AttributeStep.length_ofValue (size : Nat) (key : String) (position : Nat)
    (cs rest : List Char) (a : Attribute) (p : Nat)
    (h : ofValue size key position cs = .found a p rest) : rest.length < cs.length := by
  have hd := length_dropWhile_le isBlank cs
  unfold ofValue at h
  split at h
  · simp at h
  · rename_i q value heq
    rw [heq] at hd
    split at h
    · split at h
      · simp at h
      · rename_i v r hc
        have hl := length_of_cut? [q] value v r hc
        simp only [found.injEq] at h
        simp only [List.length_cons, List.length_nil] at hd hl
        rw [← h.2.2]
        omega
    · simp at h

theorem AttributeStep.length_ofText (size : Nat) (seen : List (String × Nat))
    (cs rest : List Char) (a : Attribute) (p : Nat)
    (h : ofText size seen cs = .found a p rest) : rest.length < cs.length := by
  have hd := length_dropWhile_le isBlank cs
  unfold ofText at h
  split at h
  · simp at h
  · rename_i c more heq
    rw [heq, List.length_cons] at hd
    dsimp only at h
    have hk := length_dropWhile_le (fun d => !(d == '=' || isBlank d)) more
    have hb := length_dropWhile_le isBlank (more.dropWhile (fun d => !(d == '=' || isBlank d)))
    split at h
    · simp at h
    · rename_i e after he
      rw [he, List.length_cons] at hb
      split at h
      · split at h
        · simp at h
        · have hv := length_ofValue _ _ _ _ _ _ _ h
          omega
      · simp at h

def AttributeRun.ofText (size : Nat) (seen : List (String × Nat)) (cs : List Char) :
    AttributeRun :=
  match h : AttributeStep.ofText size seen cs with
  | .done => ⟨[], none⟩
  | .fault f => ⟨[], some f⟩
  | .found a position rest =>
    have : rest.length < cs.length := AttributeStep.length_ofText _ _ _ _ _ _ h
    let run := ofText size ((a.key, position) :: seen) rest
    ⟨a :: run.read, run.fault⟩
termination_by cs.length

def Tag.attributes (t : Tag) : AttributeRun :=
  AttributeRun.ofText (t.name.utf8ByteSize + byteSize t.rest) [] t.rest

end YangScript.Xml
