import Rill.Command.Perform

/-!
# The program

The outer layer : the files of the machine as a `FileAccess`, and the entry point.
-/

namespace Rill

/-- The read error that stands for an error of the machine. The code of a path that goes through a
file is 20, with either sign. -/
def ReadError.ofMachine : IO.Error → ReadError
  | .noFileOrDirectory .. => .notFound
  | .inappropriateType _ code _ =>
    if code = 20 || code = 0 - 20 then .notDirectory else .isDirectory
  | e => .other (toString e)

/-- Whether a path of the machine leads to an entry of a type. -/
def hasType (path : String) (type : IO.FS.FileType) : IO Bool := do
  let here ← IO.currentDir
  try
    return (← (here / path).metadata).type == type
  catch _ => return false

/-- A directory of the machine and all paths below it. Links are not gone into. -/
partial def walkBelow (path : String) : IO (List String) := do
  let here ← IO.currentDir
  try
    let names := (← (here / path).readDir).toList.map (·.fileName)
    let below ← (names.mergeSort (fun a b => decide (a ≤ b))).mapM fun name => do
      let inner := Path.join path name
      let type := (← (here / inner).symlinkMetadata).type
      if type == .dir then walkBelow inner else return [inner]
    return path :: below.flatten
  catch _ => return [path]

/-- A path of the machine and all paths below it. -/
def walkMachine (path : String) : IO (List String) := do
  if ← hasType path .dir then walkBelow path else return [path]

/-- The files of the machine. -/
def machineFiles : FileAccess IO where
  isFile path := hasType path .file
  isDir path := hasType path .dir
  read path := do
    try
      return ReadError.decode (← IO.FS.readBinFile path)
    catch e => return .error (.ofMachine e)
  walk := walkMachine

/-- How the program is called. -/
def usage : String :=
  "Usage: rill [--config <path>] [-v] <run | ast | tokens | check> [options] [path]"

end Rill

/-- Runs the program. -/
def main (args : List String) : IO UInt32 := do
  let exit ← Rill.Command.execute Rill.machineFiles args
  IO.print exit.report.output
  for message in exit.report.messages do
    IO.eprintln message
  if Rill.Command.read args matches .error .help then IO.println Rill.usage
  if Rill.Command.read args matches .error (.misuse _) then IO.eprintln Rill.usage
  return exit.code.toUInt32
