import PawnNative.Config
import PawnNative.Text
import PawnNative.Toml.Document

/-! # Options in TOML

    The options are two booleans at the top of a TOML document. A missing one
    keeps its default and other keys are ignored.
-/

namespace PawnNative

/-- Why options cannot be read. -/
inductive ConfigError where
  /-- The file is missing or holds no text. -/
  | unreadable
  /-- The text is no document, or an option is no boolean. -/
  | malformed
  deriving DecidableEq, Repr

namespace Config

/-- An option of a document. -/
def option (t : Toml.Table) (name : String) (default : Bool) : Except ConfigError Bool :=
  match t.lookup name.toList with
  | none => .ok default
  | some (.bool b) => .ok b
  | some _ => .error .malformed

/-- Reads options from the text of a document. -/
def ofToml (s : String) : Except ConfigError Config :=
  match Toml.parse? s with
  | none => .error .malformed
  | some t => do
    let defaults : Config := {}
    return {
      intrinsics := ← option t "intrinsics" defaults.intrinsics
      memoryChecks := ← option t "memory_checks" defaults.memoryChecks }

/-- Reads options from the bytes of a file. -/
def ofFile (bytes : List Byte) : Except ConfigError Config :=
  match Text.ofUtf8? bytes with
  | none => .error .unreadable
  | some s => ofToml s

end Config

end PawnNative
