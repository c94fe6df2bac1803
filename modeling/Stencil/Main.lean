import Stencil.Cli.Run

/-!
# The program

Reads the files that the command line names, runs the command on what they hold, and writes its
outcome.
-/

set_option autoImplicit false

namespace Stencil.Main

/-- The environment variable with the path of an options file. -/
def optionsVariable : String := "PLACEHOLDERS_CONFIG"

/-- What the operating system says about a file that cannot be read. -/
def readError : IO.Error → Cli.ReadError
  | .noFileOrDirectory .. => .notFound
  | .inappropriateType _ 20 _ => .notDirectory
  | .inappropriateType _ 21 _ => .isDirectory
  | e => .other (toString e)

/-- The text in a file. -/
def readFile (path : String) : IO (Except Cli.ReadError (List Char)) := do
  match ← (IO.FS.readBinFile path).toBaseIO with
  | .error e => return .error (readError e)
  | .ok bytes =>
    match String.fromUTF8? bytes with
    | some s => return .ok s.toList
    | none => return .error .notText

/-- The files at the given paths. -/
def readFiles (paths : List String) : IO Cli.Files := do
  let contents ← paths.mapM fun path => do return (path, ← readFile path)
  return fun path => (contents.lookup path).getD (.error .notFound)

/-- The paths that a request reads. -/
def paths : Option Cli.Request → List String
  | some (.run _ command) => command.paths
  | _ => []

end Stencil.Main

/-- Runs the command line and answers the exit code. -/
def main (args : List String) : IO UInt32 := do
  let environment ← IO.getEnv Stencil.Main.optionsVariable
  let request := Stencil.Cli.Request.ofArguments? environment (args.map String.toList)
  let files ← Stencil.Main.readFiles (Stencil.Main.paths request)
  let outcome := Stencil.Cli.outcome files request
  IO.print (String.ofList outcome.stdout)
  IO.eprint (String.ofList outcome.stderr)
  return outcome.code.toUInt32
