import PawnNative.CommandLine.Arguments
import PawnNative.CommandLine.Files
import PawnNative.Config.Toml
import PawnNative.Run.Engine

/-! # The command line

    What each command prints and how it ends. Lines that were printed before an
    error stay printed; the error goes to the error output and the exit code is 1.
    Arguments that are no command have the exit code 2.
-/

namespace PawnNative

/-- What a command leaves. -/
structure CommandResult where
  exit : Nat
  stdout : String := ""
  stderr : String := ""
  deriving DecidableEq, Repr

namespace CommandResult

def success (lines : List String) : CommandResult :=
  { exit := 0, stdout := String.join (lines.map (· ++ "\n")) }

/-- A command that failed after printing some lines. -/
def failure (lines : List String) (message : String) : CommandResult :=
  { exit := 1
    stdout := String.join (lines.map (· ++ "\n"))
    stderr := "error: " ++ message ++ "\n" }

end CommandResult

namespace HelpTopic

def lines : HelpTopic → List String
  | .program =>
    ["JIT compiler for Pawn AMX bytecode",
     "",
     "Usage: amx-jit <COMMAND>",
     "",
     "Commands:",
     "  disasm  Print the bytecode listing of an image",
     "  run     Compile an image and run one of its functions",
     "  help    Print this message or the help of the given subcommand(s)",
     "",
     "Options:",
     "  -h, --help  Print help"]
  | .disasm =>
    ["Print the bytecode listing of an image",
     "",
     "Usage: amx-jit disasm <FILE>",
     "",
     "Arguments:",
     "  <FILE>  The .amx file",
     "",
     "Options:",
     "  -h, --help  Print help"]
  | .run =>
    ["Compile an image and run one of its functions",
     "",
     "Usage: amx-jit run [OPTIONS] <FILE>",
     "",
     "Arguments:",
     "  <FILE>  The .amx file",
     "",
     "Options:",
     "      --public <PUBLIC>  Public function to call instead of main",
     "      --no-intrinsics    Dispatch float natives instead of inlining them",
     "      --config <CONFIG>  Compiler options (TOML)",
     "  -h, --help             Print help"]
  | .help =>
    ["Print this message or the help of the given subcommand(s)",
     "",
     "Usage: amx-jit help [COMMAND]...",
     "",
     "Arguments:",
     "  [COMMAND]...  Print help for the subcommand(s)"]

end HelpTopic

namespace Command

def loadImage (files : Files) (file : String) : Except String Instance :=
  match files file with
  | .error e => .error (file ++ ": " ++ e.message)
  | .ok bytes =>
    match Instance.load bytes with
    | .error e => .error (file ++ ": " ++ e.message)
    | .ok vm => .ok vm

def loadConfig (files : Files) (file : String) : Except String Config :=
  match files file with
  | .error e => .error (file ++ ": failed to read config: " ++ e.message)
  | .ok bytes =>
    match Config.ofFile bytes.toList with
    | .ok c => .ok c
    | .error .unreadable =>
      .error (file ++ ": failed to read config: stream did not contain valid UTF-8")
    | .error .malformed => .error (file ++ ": failed to parse config")

def symbolLines (vm : Instance) : List String :=
  let publics := (List.range vm.header.publicTable.len).filterMap fun i => do
    let name ← vm.publicName? i
    let address ← vm.publicAddress? i
    return "public " ++ Hex.cell address ++ "  " ++ name
  let natives := (List.range vm.header.nativeTable.len).filterMap fun i => do
    let name ← vm.nativeName? i
    return "native " ++ Hex.column 8 i ++ "  " ++ name
  publics ++ natives

/-- The lines of a listing up to the first error, and the error. -/
def listing : List (Except DecodeError Instruction) → List String × Option DecodeError
  | [] => ([], none)
  | .error e :: _ => ([], some e)
  | .ok i :: rest =>
    let (lines, e) := listing rest
    (i.text :: lines, e)

def disassemble (files : Files) (file : String) : CommandResult :=
  match loadImage files file with
  | .error message => .failure [] message
  | .ok vm =>
    let (code, error) := listing ({ code := vm.code : Cursor }).remaining.1
    let lines := symbolLines vm ++ code
    match error with
    | none => .success lines
    | some e => .failure lines e.message

/-- Calls the function that the options name. -/
def callNamed (o : RunOptions) (e : Engine) (h : Host) :
    Except String (Except Crash (Except Fault Cell × Host)) :=
  match o.publicName with
  | none => .ok (e.callMain h)
  | some name =>
    match h.vm.findPublic? name with
    | some index => .ok (e.callPublic index h)
    | none => .error ("no public function named '" ++ name ++ "'")

/-- Compiles an image and runs one of its functions; gives its result. -/
def evaluate (files : Files) (o : RunOptions) : Except String Cell := do
  let config ← match o.config with
    | some file => loadConfig files file
    | none => pure {}
  let config := if o.noIntrinsics then { config with intrinsics := false } else config
  let vm ← loadImage files o.file
  let (_, vm) := vm.registerAll FloatNative.library
  let (compiled, engine) := ({ config } : Engine).compile vm
  match compiled with
  | .error e => throw e.message
  | .ok () =>
    match ← callNamed o engine { vm } with
    | .error _ => throw "the program crashed"
    | .ok (.error f, _) => throw (f.message ++ " (status " ++ f.code.decimal ++ ")")
    | .ok (.ok v, _) => return v

def execute (files : Files) : Command → CommandResult
  | .help topic => .success topic.lines
  | .disasm file => disassemble files file
  | .run o =>
    match evaluate files o with
    | .ok v => .success [v.decimal]
    | .error message => .failure [] message

end Command

def commandLine (files : Files) (args : List String) : CommandResult :=
  match Command.parse? args with
  | some c => c.execute files
  | none =>
    { exit := 2
      stderr := "error: invalid arguments\n\nUsage: amx-jit <COMMAND>\n\n" ++
        "For more information, try '--help'.\n" }

end PawnNative
