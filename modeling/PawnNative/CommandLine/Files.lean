import PawnNative.Block

/-! # Files

    Commands see files as a function from names to contents or to the reason why
    there are none. A directory of plain files is such a function.
-/

namespace PawnNative

/-- Why a file cannot be read. -/
inductive FileError where
  | missing
  | isDirectory
  | notDirectory
  | other (text : String)
  deriving DecidableEq, Repr

def FileError.message : FileError → String
  | .missing => "No such file or directory (os error 2)"
  | .isDirectory => "Is a directory (os error 21)"
  | .notDirectory => "Not a directory (os error 20)"
  | .other text => text

/-- What commands can read. -/
abbrev Files := String → Except FileError Block

namespace Files

/-- The plain files of one directory, which is also the current one. Steps that stay in the
    directory do not count. -/
def ofList (files : List (String × Block)) : Files := fun path =>
  match path.splitOn "/" with
  | [] => .error .missing
  | first :: rest =>
    if path.isEmpty then .error .missing
    else if first.isEmpty then if rest.all (·.isEmpty) then .error .isDirectory else .error .missing
    else
      match (first :: rest).filter fun part => !part.isEmpty && part != "." with
      | [] => .error .isDirectory
      | [name] =>
        match files.lookup name with
        | none => .error .missing
        | some content =>
          if (first :: rest).getLast? == some name then .ok content else .error .notDirectory
      | name :: _ => if (files.lookup name).isSome then .error .notDirectory else .error .missing

end Files

end PawnNative
