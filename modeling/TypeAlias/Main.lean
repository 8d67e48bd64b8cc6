import TypeAlias.CommandLine.Program

/-!
# The command line

The program reads the files that its arguments may name, and prints. It cannot offer the service.
-/

open TypeAlias.CommandLine TypeAlias.Files

/-- What stands at a path. -/
def fileStateAt (path : String) : IO FileState := do
  if path.toList.contains '\x00' then return .unnameable
  try
    return .file (← IO.FS.readBinFile path)
  catch
    | .inappropriateType .. => return .directory
    | .permissionDenied .. => return .locked
    | .invalidArgument .. => return .tooLong
    | _ => return .absent

/-- Runs the program. -/
def main (arguments : List String) : IO UInt32 := do
  let paths := arguments ++ arguments.map fun a => (Location.ofText a).text
  let states ← paths.mapM fun path => return (path, ← fileStateAt path)
  let outcome := run { lookup := fun path => (states.lookup path).getD .absent } arguments
  IO.print outcome.out
  IO.eprint outcome.err
  if let some e := outcome.uncaught then IO.eprintln e.message
  return outcome.exit.toUInt32
