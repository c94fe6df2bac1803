import Stencil.Cli.Libraries
import Stencil.Tree.Replace

/-!
# Running a command

A command reads its files, and gives either its whole output or the first failure, in the order:
options, template, context, rendering, output.

## Main definitions

* `Stencil.Cli.ReadError`, `Stencil.Cli.Failure` — what can go wrong.
* `Stencil.Cli.Files` — what reading a path gives.
* `Stencil.Cli.loadOptions`, `Stencil.Cli.readDocument`, `Stencil.Cli.writeDocument` — the stages at
  which files and libraries are asked.
* `Stencil.Cli.Command.output` — the output of a command.
* `Stencil.Cli.Outcome`, `Stencil.Cli.run` — the exit code and the texts that a command line gives.
-/

set_option autoImplicit false

namespace Stencil.Cli

/-! ## Failures -/

/-- Why a file cannot be read. -/
inductive ReadError where
  | notFound
  | notDirectory
  | isDirectory
  | notText
  /-- Another answer of the operating system. -/
  | other (reason : String)
deriving DecidableEq, Inhabited

/-- The text for a file that cannot be read. -/
def ReadError.message : ReadError → String
  | .notFound => "No such file or directory (os error 2)"
  | .notDirectory => "Not a directory (os error 20)"
  | .isDirectory => "Is a directory (os error 21)"
  | .notText => "stream did not contain valid UTF-8"
  | .other reason => reason

/-- What reading a path gives. -/
abbrev Files := String → Except ReadError (List Char)

/-- Why a command fails. -/
inductive Failure where
  /-- The options file cannot be read. -/
  | optionsFile (e : ReadError)
  | options (e : OptionsError)
  /-- The file at a path cannot be read. -/
  | file (path : String) (e : ReadError)
  | document (e : DocumentError)
  | render (e : RenderError)
deriving DecidableEq, Inhabited

namespace Failure

/-- A document cannot be read, for this reason. -/
def unreadable (format : Format) (account : Account) : Failure :=
  .document (@DocumentError.unreadable format account)

/-- A document cannot be written, for this reason. -/
def unwritable (format : Format) (account : Account) : Failure :=
  .document (@DocumentError.unwritable format account)

/-- The text of a failure. -/
def message : Failure → String
  | .optionsFile e => "I/O error: " ++ e.message
  | .options e => e.message
  | .file path e => "Failed to read " ++ path ++ ": " ++ e.message
  | .document e => e.message
  | .render e => e.message

/-- The line that reports a failure. -/
def line (e : Failure) (paint : Paint) : List Char :=
  paint .alarm "error".toList ++ ": ".toList ++ e.message.toList ++ ['\n']

end Failure

/-! ## Commands -/

/-- The options in a file, validated, or the defaults without one. -/
def loadOptions (files : Files) (config : Option String) (libraries : Libraries) :
    Except Failure Options :=
  match config with
  | none => .ok {}
  | some path => do
    let content ← (files path).mapError .optionsFile
    (Options.parse libraries.options content).mapError .options

/-- The value in a file and the format in which it is written. -/
def readDocument (files : Files) (path : String) (libraries : Libraries := .own) :
    Except Failure (Value × Format) := do
  let content ← (files path).mapError (.file path)
  let format := Format.detect path.toList content
  return (← (libraries.parse format content).mapError (.unreadable format), format)

/-- The document of a value. -/
def writeDocument (format : Format) (pretty : Bool) (v : Value) (libraries : Libraries) :
    Except Failure (List Char) :=
  (libraries.render format pretty v).mapError (.unwritable format)

/-- A text with a line feed at its end. -/
def endLine (s : List Char) : List Char := if s.getLast? = some '\n' then s else s ++ ['\n']

/-- The output of a command. A rendered template has the format of the template unless another one
is asked for. -/
def Command.output (files : Files) (command : Command) (libraries : Libraries) :
    Except Failure (List Char) :=
  match command with
  | .render template context config output pretty => do
    let options ← loadOptions files config libraries
    let (template, format) ← readDocument files template libraries
    let (context, _) ← readDocument files context libraries
    let value ← (Tree.replace context options template).mapError .render
    return endLine (← writeDocument (output.getD format) pretty value libraries)
  | .inspect template json => do
    let (node, _) ← readDocument files template libraries
    let entries ← (Inspect.entries node).mapError .render
    if json then
      return (← writeDocument .json true (Inspect.reportValue entries) libraries) ++ ['\n']
    else return Inspect.report libraries.paint entries

/-- The paths that a command reads. -/
def Command.paths : Command → List String
  | .render template context config _ _ => config.toList ++ [template, context]
  | .inspect template _ => [template]

/-! ## Outcomes -/

/-- The exit code and the texts that a command line gives. -/
structure Outcome where
  code : Nat
  stdout : List Char := []
  stderr : List Char := []
deriving DecidableEq

/-- The name and version of the program. -/
def versionText : List Char := "placeholders 0.1.0\n".toList

/-- How the program is called. -/
def usageText : List Char := "Usage: placeholders [OPTIONS] <COMMAND>\n".toList

/-- The outcome of a request; none is a mistake in the command line. A log comes in front of the
failure that is reported. -/
def outcome (files : Files) (request : Option Request) (libraries : Libraries := .own) : Outcome :=
  match request with
  | none => ⟨2, [], usageText⟩
  | some .version => ⟨0, versionText, []⟩
  | some .help => ⟨0, usageText, []⟩
  | some (.run verbose command) =>
    match command.output files libraries with
    | .ok s => ⟨0, s, libraries.logged verbose command⟩
    | .error e => ⟨1, [], libraries.logged verbose command ++ e.line libraries.paint⟩

/-- The outcome of a command line. `environment` is the path of an options file. -/
def run (files : Files) (environment : Option String) (args : List String)
    (libraries : Libraries := .own) : Outcome :=
  outcome files (Request.ofArguments? environment (args.map String.toList)) libraries

end Stencil.Cli
