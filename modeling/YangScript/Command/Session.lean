import YangScript.Command.Run

/-!
# The program

What the command line of a call leads to: an exit code and what is printed. Success is zero, a
failed or failing run is one, and a command line that cannot be understood is two.
-/

set_option autoImplicit false

namespace YangScript

structure Exit where
  code : Nat
  printed : String
  complaint : String
  deriving DecidableEq, Repr

def versionText : String := "yangly 0.1.0\n"

def helpText : String :=
  Text.join "\n" [
    "Generate TypeScript interfaces from resolved YANG modules",
    "",
    "Usage: yangly [OPTIONS]",
    "",
    "Options:",
    "  -p, --path <PATH>            Directory to scan for module documents, " ++
      "relative to the working directory [default: yangs]",
    "  -o, --out <OUT>              Directory to write generated files into [default: dist]",
    "  -e, --extension <EXTENSION>  Extension of the module documents to load [default: xml]",
    "  -b, --bail                   Stop at the first error",
    "      --permissive             Use `any` instead of `unknown` for unrepresentable types",
    "      --style <STYLE>          Declaration syntax for the generated type [default: interface] " ++
      "[possible values: interface, alias]",
    "      --no-header              Omit the module header comment",
    "  -h, --help                   Print help",
    "  -V, --version                Print version",
    ""]

def UsageError.message : UsageError → String
  | .invalidValue => "error: a value is missing or not allowed\n"
  | .unknownArgument => "error: unexpected argument\n"
  | .argumentConflict => "error: an argument cannot be used twice\n"
  | .tooManyValues => "error: a flag takes no value\n"
  | .displayHelp => helpText
  | .displayVersion => versionText

def usageExit (e : UsageError) : Exit :=
  match e with
  | .displayHelp => ⟨0, e.message, ""⟩
  | .displayVersion => ⟨0, e.message, ""⟩
  | _ => ⟨2, "", e.message⟩

/-- The failure that ended a run is said once more at its end. -/
def program (cwd : String) (args : List String) : Job Exit :=
  match Options.parse args with
  | .error e => .done (usageExit e)
  | .ok options =>
    (runJob cwd options).bind fun result =>
      match result with
      | .error f => .say (.failed f) (.done ⟨1, "", ""⟩)
      | .ok s => .done ⟨if s.isSuccess then 0 else 1, "", ""⟩

end YangScript
