import PawnNative.CommandLine

/-! # The program

    Reads the files of a command, executes it and prints what it leaves.
-/

open PawnNative

/-- The content of a file, or the reason why there is none. -/
def readFile (path : String) : IO (Except FileError Block) := do
  try
    let bytes ← IO.FS.readBinFile path
    return .ok (bytes.data.map fun b => BitVec.ofNat 8 b.toNat)
  catch
    | .noFileOrDirectory .. => return .error .missing
    | .inappropriateType .. => return .error .isDirectory
    | e => return .error (.other (toString e))

def main (args : List String) : IO UInt32 := do
  let paths := ((Command.parse? args).map Command.files).getD []
  let contents ← paths.mapM fun path => do return (path, ← readFile path)
  let files : Files := fun path => (contents.lookup path).getD (.error .missing)
  let result := commandLine files args
  IO.print result.stdout
  IO.eprint result.stderr
  return UInt32.ofNat result.exit
