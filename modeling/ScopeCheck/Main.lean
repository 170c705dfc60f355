import ScopeCheck.Command.Run

namespace ScopeCheck

/-- What stands at a path. Whatever is there and cannot be read counts as a directory; there is
nothing below a file. -/
def readEntry (path : Path) : IO FileEntry := do
  try
    let bytes ← IO.FS.readBinFile path.text
    return .file bytes.toList
  catch
    | .noFileOrDirectory .. => return .missing
    | .inappropriateType (some _) .. => return .missing
    | _ => return .directory

/-- Colour is forced or forbidden by the surroundings, or shown on a terminal. -/
def readDisplay : IO Text.Display := do
  let forced ← IO.getEnv "CLICOLOR_FORCE"
  let noColor ← IO.getEnv "NO_COLOR"
  let wanted ← IO.getEnv "CLICOLOR"
  let terminal ← (← IO.getStdout).isTty
  let color := forced.any (· ≠ "0") || (noColor.isNone && wanted.all (· ≠ "0") && terminal)
  return ⟨noColor.isSome, color⟩

/-- Reads the files that the arguments lead to, runs, and writes what comes out. -/
def runOnDisk (arguments : List String) : IO UInt32 := do
  let entries ← (pathsOf arguments).mapM fun path => do return (path, ← readEntry path)
  let files : Files := fun path => (entries.lookup path).getD .missing
  let outcome := run files (← IO.currentDir).toString arguments (← readDisplay)
  IO.eprint outcome.stderr
  IO.print outcome.stdout
  return outcome.exit

end ScopeCheck

def main (arguments : List String) : IO UInt32 := ScopeCheck.runOnDisk arguments
