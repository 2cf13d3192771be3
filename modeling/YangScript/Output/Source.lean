import YangScript.Output.Mapping

/-!
# The generated text of a module

A module becomes one interface with a field for each top-level entry that is neither an operation
nor input only. A module without such an entry yields no text. Otherwise the text is a comment
that names the module, its current revision and its namespace, an empty line, and the declaration.
-/

set_option autoImplicit false

namespace YangScript

structure SourceOptions where
  strict : Bool
  style : DeclarationForm
  header : Bool
  deriving DecidableEq, Repr

def SourceOptions.default : SourceOptions :=
  { strict := true, style := .interface, header := true }

/-- Why a module has no interface. -/
inductive RootError where
  | noModule
  | noRoot (name : String)
  deriving DecidableEq, Repr

def RootError.message : RootError → String
  | .noModule => "module is nil"
  | .noRoot name => s!"entry is nil: module '{name}' does not resolve to a root entry"

/-- Whether a top-level entry becomes a field. -/
def Entry.isDeclared (e : Entry) : Bool := !e.operation && !e.inputOnly

namespace Module

def interfaceOf (strict : Bool) (m : Module) : Interface :=
  ⟨m.name, Entry.scriptFields strict (m.entries.filter Entry.isDeclared)⟩

/-- What is said about one top-level entry. -/
def entryNotices (strict : Bool) (owner : String) (e : Entry) : List Notice :=
  if e.operation then [.skippedOperation e.name owner]
  else if e.inputOnly then [.skippedInput e.name owner]
  else e.notices strict

def walkNotices (strict : Bool) (m : Module) : List Notice :=
  m.entries.flatMap (entryNotices strict m.name)

def interface (strict : Bool) (m : Module) : Noted (Except RootError Interface) :=
  if m.isSubmodule then ⟨[], .error (.noRoot m.name)⟩
  else ⟨m.walkNotices strict, .ok (m.interfaceOf strict)⟩

theorem eq_interfaceOf {strict : Bool} {m : Module} {i : Interface}
    (h : (m.interface strict).value = .ok i) : i = m.interfaceOf strict := by
  rw [interface] at h
  split at h
  · exact absurd h (by simp)
  · exact (Except.ok.inj h).symm

/-- The comment that tells where a declaration comes from. -/
def originComment (m : Module) : String :=
  let revision := match m.current with
    | none => ""
    | some date => "@" ++ date
  "// Module: " ++ m.name ++ revision ++ " (Namespace: " ++ m.uri.getD "none" ++ ")"

def sourceText (m : Module) (i : Interface) (style : DeclarationForm) (header : Bool) : String :=
  (if header then m.originComment ++ "\n\n" else "") ++ i.declaration style ++ "\n"

def source (options : SourceOptions) (m : Module) : Noted (Except RootError (Option String)) :=
  let walked := m.interface options.strict
  { notices := walked.notices
    value := walked.value.map (fun i =>
      if i.isEmpty then none
      else some (m.sourceText i options.style options.header)) }

/-- What a module comes to, all notices aside. -/
theorem source_value (options : SourceOptions) (m : Module) :
    (m.source options).value =
      if m.isSubmodule then .error (.noRoot m.name)
      else
        let i := m.interfaceOf options.strict
        .ok (if i.isEmpty then none else some (m.sourceText i options.style options.header)) := by
  cases hsub : m.isSubmodule with
  | true => simp [source, interface, hsub, Except.map]
  | false => simp [source, interface, hsub, Except.map]

end Module

/-- The interface of a module that may be missing altogether. -/
def interfaceOf? (strict : Bool) : Option Module → Noted (Except RootError Interface)
  | none => ⟨[], .error .noModule⟩
  | some m => m.interface strict

end YangScript
