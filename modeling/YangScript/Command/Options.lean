import YangScript.Output.Source

/-!
# The command line

Four settings take a value and five switches do not. A value is attached to its setting or is the
next argument; a next argument is judged only when another known argument acts or the line ends,
so an unknown argument met before that is the error reported. No setting or switch may occur
twice, and nothing stands alone.
-/

set_option autoImplicit false

namespace YangScript

structure Options where
  path : String
  out : String
  extension : String
  bail : Bool
  source : SourceOptions
  deriving DecidableEq, Repr

inductive UsageError where
  | invalidValue
  | unknownArgument
  | argumentConflict
  | tooManyValues
  | displayHelp
  | displayVersion
  deriving DecidableEq, Repr

namespace CommandLine

inductive Setting where
  | path
  | out
  | extension
  | style
  deriving DecidableEq, Repr

inductive Switch where
  | bail
  | permissive
  | noHeader
  | help
  | version
  deriving DecidableEq, Repr

inductive Name where
  | setting (s : Setting)
  | switch (w : Switch)
  deriving DecidableEq, Repr

def longName? (name : String) : Option Name :=
  match name with
  | "path" => some (.setting .path)
  | "out" => some (.setting .out)
  | "extension" => some (.setting .extension)
  | "style" => some (.setting .style)
  | "bail" => some (.switch .bail)
  | "permissive" => some (.switch .permissive)
  | "no-header" => some (.switch .noHeader)
  | "help" => some (.switch .help)
  | "version" => some (.switch .version)
  | _ => none

def shortName? (letter : Char) : Option Name :=
  match letter with
  | 'p' => some (.setting .path)
  | 'o' => some (.setting .out)
  | 'e' => some (.setting .extension)
  | 'b' => some (.switch .bail)
  | 'h' => some (.switch .help)
  | 'V' => some (.switch .version)
  | _ => none

inductive Argument where
  | terminator
  | long (name : String) (value : Option String)
  | short (letters : List Char)
  | plain (text : String)
  deriving DecidableEq, Repr

/-- A long argument is cut at its first equals sign. A hyphen alone is plain text. -/
def Argument.ofString (s : String) : Argument :=
  match s.toList with
  | ['-', '-'] => .terminator
  | '-' :: '-' :: name =>
    let value := match name.dropWhile (fun c => c != '=') with
      | [] => none
      | _ :: v => some (String.ofList v)
    .long (String.ofList (name.takeWhile (fun c => c != '='))) value
  | '-' :: c :: letters => .short (c :: letters)
  | _ => .plain s

/-- What has been chosen so far. -/
structure Choices where
  path : Option String
  out : Option String
  extension : Option String
  style : Option DeclarationForm
  bail : Bool
  permissive : Bool
  noHeader : Bool

def Choices.none : Choices := ⟨.none, .none, .none, .none, false, false, false⟩

def nonempty (value : String) : Except UsageError String :=
  if value = "" then .error .invalidValue else .ok value

def style? (value : String) : Except UsageError DeclarationForm :=
  match value with
  | "interface" => .ok .interface
  | "alias" => .ok .typeAlias
  | _ => .error .invalidValue

def once {α : Type} (chosen : Option α) (judge : Except UsageError α) :
    Except UsageError (Option α) :=
  if chosen.isSome then .error .argumentConflict else judge.map some

def Choices.assign (c : Choices) (s : Setting) (value : String) : Except UsageError Choices :=
  match s with
  | .path => (once c.path (nonempty value)).map (fun path => { c with path })
  | .out => (once c.out (nonempty value)).map (fun out => { c with out })
  | .extension => (once c.extension (.ok value)).map (fun extension => { c with extension })
  | .style => (once c.style (style? value)).map (fun style => { c with style })

def Choices.turnOn (c : Choices) (w : Switch) : Except UsageError Choices :=
  match w with
  | .bail => if c.bail then .error .argumentConflict else .ok { c with bail := true }
  | .permissive =>
    if c.permissive then .error .argumentConflict else .ok { c with permissive := true }
  | .noHeader =>
    if c.noHeader then .error .argumentConflict else .ok { c with noHeader := true }
  | .help => .error .displayHelp
  | .version => .error .displayVersion

/-- A setting whose value, if there is one yet, has not been judged. -/
structure Pending where
  setting : Setting
  value : Option String

structure Reading where
  choices : Choices
  pending : Option Pending

/-- Judges what is pending. -/
def Reading.settle (r : Reading) : Except UsageError Choices :=
  match r.pending with
  | none => .ok r.choices
  | some ⟨_, none⟩ => .error .invalidValue
  | some ⟨s, some value⟩ => r.choices.assign s value

/-- A setting met on the line, with its value if that is attached. -/
def Reading.meet (r : Reading) (s : Setting) (value : Option String) :
    Except UsageError Reading := do
  let c ← r.settle
  match value with
  | none => .ok ⟨c, some ⟨s, none⟩⟩
  | some v => do
    let c ← c.assign s v
    .ok ⟨c, none⟩

def Reading.flip (r : Reading) (w : Switch) : Except UsageError Reading := do
  let c ← r.settle
  let c ← c.turnOn w
  .ok ⟨c, none⟩

/-- The value attached to a short setting: what follows its letter, less one equals sign. -/
def attached : List Char → Option String
  | [] => none
  | '=' :: value => some (String.ofList value)
  | value => some (String.ofList value)

def Reading.letters (r : Reading) : List Char → Except UsageError Reading
  | [] => .ok r
  | c :: rest =>
    match shortName? c with
    | none => .error .unknownArgument
    | some (.setting s) => r.meet s (attached rest)
    | some (.switch w) =>
      match r.flip w with
      | .error e => .error e
      | .ok next => next.letters rest

def Reading.long (r : Reading) (name : String) (value : Option String) :
    Except UsageError Reading :=
  match longName? name with
  | none => .error .unknownArgument
  | some (.setting s) => r.meet s value
  | some (.switch w) => if value.isSome then .error .tooManyValues else r.flip w

def Reading.plain (r : Reading) (text : String) : Except UsageError Reading :=
  match r.pending with
  | some ⟨s, none⟩ => .ok { r with pending := some ⟨s, some text⟩ }
  | _ => .error .unknownArgument

def Reading.run (r : Reading) : List String → Except UsageError Choices
  | [] => r.settle
  | arg :: rest =>
    match Argument.ofString arg with
    | .terminator => if rest.isEmpty then r.settle else .error .unknownArgument
    | .long name value =>
      match r.long name value with
      | .error e => .error e
      | .ok next => next.run rest
    | .short letters =>
      match r.letters letters with
      | .error e => .error e
      | .ok next => next.run rest
    | .plain text =>
      match r.plain text with
      | .error e => .error e
      | .ok next => next.run rest

end CommandLine

/-- The options that the choices amount to. -/
def CommandLine.Choices.options (c : CommandLine.Choices) : Options :=
  { path := c.path.getD "yangs"
    out := c.out.getD "dist"
    extension := c.extension.getD "xml"
    bail := c.bail
    source :=
      { strict := !c.permissive
        style := c.style.getD .interface
        header := !c.noHeader } }

def Options.parse (args : List String) : Except UsageError Options :=
  (CommandLine.Reading.run ⟨.none, none⟩ args).map CommandLine.Choices.options

end YangScript
