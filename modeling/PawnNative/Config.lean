/-! # Compiler options -/

namespace PawnNative

/-- What the compiler may do. -/
structure Config where
  /-- Puts float natives into the code instead of calling them. -/
  intrinsics : Bool := true
  /-- Checks indirect accesses against the data segment. -/
  memoryChecks : Bool := true
  deriving DecidableEq, Repr, Inhabited

end PawnNative
