import Stencil.Document.Format

/-!
# Command lines

A command line names a command, gives options in any order, each at most once, and the one file that
the command works on.

## Main definitions

* `Stencil.Cli.Command` — what is to be done.
* `Stencil.Cli.Request` — a command, or a question about the program itself.
* `Stencil.Cli.Switch` — an option that a command knows.
* `Stencil.Cli.collect` — the options and the file on a command line.
* `Stencil.Cli.Request.ofArguments?` — the request of a command line.
-/

set_option autoImplicit false

namespace Stencil.Cli

/-! ## Requests -/

/-- What is to be done. -/
inductive Command where
  /-- Render a template file against a context file. -/
  | render (template context : String) (config : Option String) (output : Option Format)
      (pretty : Bool)
  /-- List the placeholders of a template file. -/
  | inspect (template : String) (json : Bool)
deriving DecidableEq, Inhabited

/-- A command, or a question about the program itself. -/
inductive Request where
  /-- The command is run, with a log of what it does or without one. -/
  | run (verbose : Bool) (command : Command)
  | version
  | help
deriving DecidableEq, Inhabited

/-! ## Options -/

/-- What follows an option. -/
inductive Operand where
  | nothing
  /-- A path, which is not empty. -/
  | path
  /-- The name of a format. -/
  | format
deriving DecidableEq, Inhabited

/-- The operand may be this text. -/
def Operand.accepts (operand : Operand) (s : List Char) : Bool :=
  match operand with
  | .nothing => s = []
  | .path => s ≠ []
  | .format => (Format.ofName? (String.ofList s)).isSome

/-- An option: its long name, its letter if it has one, and what follows it. -/
structure Switch where
  long : List Char
  letter : Option Char := none
  operand : Operand := .nothing
deriving DecidableEq, Inhabited

namespace Switch

/-- A log of what is done; every command knows it. -/
def verbose : Switch := ⟨"verbose".toList, some 'v', .nothing⟩

/-- The usage text. -/
def help : Switch := ⟨"help".toList, some 'h', .nothing⟩

/-- The version. -/
def version : Switch := ⟨"version".toList, some 'V', .nothing⟩

/-- The context file. -/
def context : Switch := ⟨"context".toList, some 'c', .path⟩

/-- The options file. -/
def config : Switch := ⟨"config".toList, none, .path⟩

/-- The format of the output. -/
def output : Switch := ⟨"output".toList, some 'o', .format⟩

/-- Indented output. -/
def pretty : Switch := ⟨"pretty".toList, none, .nothing⟩

/-- A report as JSON. -/
def json : Switch := ⟨"json".toList, none, .nothing⟩

/-- Something follows the option. -/
def hasValue (s : Switch) : Bool := s.operand != .nothing

end Switch

/-- What has been found on a command line: options with their values, and the file. -/
structure Found where
  switches : List (Switch × List Char) := []
  file : Option (List Char) := none

namespace Found

/-- The option is there. -/
def has (found : Found) (s : Switch) : Bool := found.switches.any fun m => m.1 = s

/-- The value of an option. -/
def value? (found : Found) (s : Switch) : Option (List Char) := found.switches.lookup s

/-- Adds an option, which must not be there yet, with a value that it may have. -/
def add? (found : Found) (s : Switch) (value : List Char) : Option Found :=
  if found.has s || !s.operand.accepts value then none
  else some { found with switches := found.switches ++ [(s, value)] }

/-- Adds the file, of which there is only one. -/
def addFile? (found : Found) (file : List Char) : Option Found :=
  if found.file.isSome || !Operand.path.accepts file then none
  else some { found with file := some file }

end Found

/-- How far a command line has been read. -/
inductive Progress where
  /-- The next argument is an option or a file. -/
  | between (found : Found)
  /-- The next argument is the value of an option. -/
  | valueOf (s : Switch) (found : Found)
  /-- A further argument is the file. -/
  | filesOnly (found : Found)
  /-- An option that asks about the program itself ends the reading. -/
  | asked (request : Request)

/-- An option without a value has been read. -/
def flag? (s : Switch) (found : Found) : Option Progress :=
  if s = .help then some (.asked .help)
  else if s = .version then some (.asked .version)
  else (found.add? s []).map .between

/-- An argument with two hyphens: a long name, and a value behind an equals sign. -/
def long? (switches : List Switch) (s : List Char) (found : Found) : Option Progress :=
  match s.span (· ≠ '=') with
  | (name, value) =>
    match switches.find? (·.long = name), value with
    | none, _ => none
    | some s, [] => if s.hasValue then some (.valueOf s found) else flag? s found
    | some s, _ :: value => if s.hasValue then (found.add? s value).map .between else none

/-- An argument with one hyphen: letters of options, the last of which may have its value behind it,
with or without an equals sign. -/
def letters? (switches : List Switch) : List Char → Found → Option Progress
  | [], found => some (.between found)
  | c :: rest, found =>
    match switches.find? (·.letter = some c) with
    | none => none
    | some s =>
      if s.hasValue then
        match rest with
        | [] => some (.valueOf s found)
        | '=' :: value | value => (found.add? s value).map .between
      else
        match flag? s found with
        | some (.between found) => letters? switches rest found
        | other => other

/-- One argument. -/
def argument? (switches : List Switch) (progress : Progress) (s : List Char) : Option Progress :=
  let isOption := s ≠ ['-'] ∧ s.head? = some '-'
  match progress with
  | .asked request => some (.asked request)
  | .filesOnly found => (found.addFile? s).map .filesOnly
  | .valueOf option found =>
    if isOption then none else (found.add? option s).map .between
  | .between found =>
    match s with
    | ['-', '-'] => some (.filesOnly found)
    | '-' :: '-' :: name => long? switches name found
    | '-' :: c :: rest => letters? switches (c :: rest) found
    | file => (found.addFile? file).map .between

/-- The options and the file among arguments, or the question that one of the options asks. -/
def collect (switches : List Switch) (args : List (List Char)) : Option (Request ⊕ Found) := do
  match ← args.foldlM (argument? switches) (.between {}) with
  | .asked request => some (.inl request)
  | .between found | .filesOnly found => some (.inr found)
  | .valueOf _ _ => none

/-! ## Commands -/

/-- A path from the environment, which may not be empty. -/
def environmentPath? : Option String → Option (Option String)
  | none => some none
  | some s => if Operand.path.accepts s.toList then some (some s) else none

/-- The command `render`. An options file from the environment counts when none is given. -/
def render? (environment : Option String) (found : Found) : Option Command := do
  let template ← found.file
  let context ← found.value? .context
  let config ← match found.value? .config with
    | none => environmentPath? environment
    | some path => some (some (String.ofList path))
  let output := (found.value? .output).bind fun name => Format.ofName? (String.ofList name)
  return .render (String.ofList template) (String.ofList context) config output
    (found.has .pretty)

/-- The command `inspect`. -/
def inspect? (found : Found) : Option Command := do
  return .inspect (String.ofList (← found.file)) (found.has .json)

/-- The options that a command knows and the command that they make. -/
def command? (environment : Option String) (name : List Char) :
    Option (List Switch × (Found → Option Command)) :=
  if name = "render".toList then
    some ([.verbose, .help, .context, .config, .output, .pretty], render? environment)
  else if name = "inspect".toList then some ([.verbose, .help, .json], inspect?)
  else none

/-- The arguments in front of the name of a command, and from there on. -/
def splitCommand (args : List (List Char)) : List (List Char) × List (List Char) :=
  args.span fun s => s ≠ ['-'] ∧ s.head? = some '-' ∧ s ≠ ['-', '-']

/-- A question about the program, or about a command that is named behind it. -/
def isQuestion : List (List Char) → Bool
  | [] => true
  | [name] => ["render", "inspect", "help"].contains (String.ofList name)
  | _ => false

/-- The request of a command line; none is a mistake in it. `environment` is the path of an options
file. -/
def Request.ofArguments? (environment : Option String) (args : List (List Char)) :
    Option Request := do
  let (before, rest) := splitCommand args
  match ← collect [.verbose, .help, .version] before with
  | .inl request => return request
  | .inr inFront =>
    match rest with
    | [] => none
    | name :: args =>
      if name = "help".toList then
        if isQuestion args then return .help else failure
      let (switches, build) ← command? environment name
      match ← collect switches args with
      | .inl request => return request
      | .inr found => return .run (inFront.has .verbose || found.has .verbose) (← build found)

end Stencil.Cli
