/-! # Command line arguments

    There are two commands: one lists an image, the other runs a function of it.
    Arguments are read from left to right; the first thing that is wrong makes the
    whole line wrong, and a request for help ends the reading. After a lone double
    dash nothing is an option any more.
-/

namespace PawnNative

/-- What help is about. -/
inductive HelpTopic where
  | program | disasm | run | help
  deriving DecidableEq, Repr

/-- What to run and how. -/
structure RunOptions where
  file : String
  /-- The public function to call in place of the entry point. -/
  publicName : Option String := none
  /-- Whether float natives are always called. -/
  noIntrinsics : Bool := false
  /-- The file with the compiler options. -/
  config : Option String := none
  deriving DecidableEq, Repr

inductive Command where
  | disasm (file : String)
  | run (options : RunOptions)
  | help (topic : HelpTopic)
  deriving DecidableEq, Repr

namespace Arguments

/-- What kind of argument a word is. -/
inductive Word where
  /-- The lone double dash. -/
  | dashes
  /-- A long option, with the value after an equals sign. -/
  | long (name : String) (value : Option String)
  | short (letters : List Char)
  | plain (s : String)
  deriving DecidableEq, Repr

/-- The kind of a word. A single dash is a plain word. -/
def Word.ofString (s : String) : Word :=
  match s.toList with
  | ['-', '-'] => .dashes
  | '-' :: '-' :: rest =>
    let name := rest.takeWhile (· != '=')
    match rest.drop name.length with
    | _ :: value => .long (String.ofList name) (some (String.ofList value))
    | [] => .long (String.ofList name) none
  | '-' :: c :: rest => .short (c :: rest)
  | _ => .plain s

def Word.isHelp : Word → Bool
  | .long name none => name == "help"
  | .short ('h' :: _) => true
  | _ => false

/-- Options as far as they were read. -/
structure Draft where
  file : Option String := none
  publicName : Option String := none
  noIntrinsics : Bool := false
  config : Option String := none

/-- Takes the file; there is one, and its name is not empty. -/
def Draft.setFile (d : Draft) (s : String) : Option Draft :=
  if d.file.isSome || s.isEmpty then none else some { d with file := some s }

/-- Takes the public function, once. -/
def Draft.setPublic (d : Draft) (s : String) : Option Draft :=
  if d.publicName.isSome then none else some { d with publicName := some s }

/-- Takes the file with the compiler options, once; its name is not empty. -/
def Draft.setConfig (d : Draft) (s : String) : Option Draft :=
  if d.config.isSome || s.isEmpty then none else some { d with config := some s }

/-- Takes the option without a value, once. -/
def Draft.setNoIntrinsics (d : Draft) : Option Draft :=
  if d.noIntrinsics then none else some { d with noIntrinsics := true }

/-- How a long option with this name is taken, if it needs a value. -/
def Draft.valued? (name : String) : Option (Draft → String → Option Draft) :=
  if name == "public" then some Draft.setPublic
  else if name == "config" then some Draft.setConfig
  else none

/-- What reading the arguments of a command gives. -/
inductive Reading where
  | options (d : Draft)
  | help

/-- Words that are no options. -/
def files (d : Draft) : List String → Option Draft
  | [] => some d
  | s :: rest => do files (← d.setFile s) rest

/-- Reads the arguments of a command; `hasOptions` says whether it has other options than
    help. -/
def read (hasOptions : Bool) (d : Draft) : List String → Option Reading
  | [] => some (.options d)
  | s :: rest =>
    let w := Word.ofString s
    if w.isHelp then some .help
    else match w with
      | .plain s => do read hasOptions (← d.setFile s) rest
      | .dashes => (files d rest).map .options
      | .short _ => none
      | .long name value =>
        if !hasOptions then none
        else match Draft.valued? name with
          | some set =>
            match value, rest with
            | some v, rest => do read hasOptions (← set d v) rest
            | none, v :: rest =>
              match Word.ofString v with
              | .plain v => do read hasOptions (← set d v) rest
              | _ => none
            | none, [] => none
          | none =>
            if name == "no-intrinsics" && value.isNone then do
              read hasOptions (← d.setNoIntrinsics) rest
            else none

end Arguments

namespace Command

open Arguments

/-- The command in a list of arguments; none if they are no proper command. -/
def parse? : List String → Option Command
  | [] => none
  | "disasm" :: args => do
    match ← read false {} args with
    | .help => return .help .disasm
    | .options d => return .disasm (← d.file)
  | "run" :: args => do
    match ← read true {} args with
    | .help => return .help .run
    | .options d =>
      return .run {
        file := ← d.file
        publicName := d.publicName
        noIntrinsics := d.noIntrinsics
        config := d.config }
  | ["help"] => some (.help .program)
  | ["help", "disasm"] => some (.help .disasm)
  | ["help", "run"] => some (.help .run)
  | ["help", "help"] => some (.help .help)
  | s :: _ => if (Word.ofString s).isHelp then some (.help .program) else none

/-- The files that a command reads, in order. -/
def files : Command → List String
  | .disasm file => [file]
  | .run o => o.config.toList ++ [o.file]
  | .help _ => []

end Command

end PawnNative
