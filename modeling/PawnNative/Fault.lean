import PawnNative.Cell

/-! # Faults

    A run, or an operation of the host on an instance, ends either well or with
    a fault. Each fault has a status code, which is what compiled code hands back
    to its caller; status 0 stands for success and is no fault.
-/

namespace PawnNative

/-- Why an operation on an instance did not succeed. -/
inductive Fault where
  | exit | assertion | stackError | bounds | memoryAccess | invalidInstruction | stackLow
  | heapLow | callback | native | divide | sleep | invalidState | memory | format | version
  | notFound | index | debug | init | userData | initJit | params | domain | general
  deriving DecidableEq, Repr, Inhabited

namespace Fault

def code : Fault → Cell
  | .exit => 1
  | .assertion => 2
  | .stackError => 3
  | .bounds => 4
  | .memoryAccess => 5
  | .invalidInstruction => 6
  | .stackLow => 7
  | .heapLow => 8
  | .callback => 9
  | .native => 10
  | .divide => 11
  | .sleep => 12
  | .invalidState => 13
  | .memory => 16
  | .format => 17
  | .version => 18
  | .notFound => 19
  | .index => 20
  | .debug => 21
  | .init => 22
  | .userData => 23
  | .initJit => 24
  | .params => 25
  | .domain => 26
  | .general => 27

def all : List Fault :=
  [.exit, .assertion, .stackError, .bounds, .memoryAccess, .invalidInstruction, .stackLow,
   .heapLow, .callback, .native, .divide, .sleep, .invalidState, .memory, .format, .version,
   .notFound, .index, .debug, .init, .userData, .initJit, .params, .domain, .general]

/-- What a status means: 0 is success, and a status that names no fault is a general fault. -/
def ofCode (status : Cell) : Option Fault :=
  if status = 0 then none else some ((all.find? fun f => f.code == status).getD .general)

def message : Fault → String
  | .exit => "forced exit"
  | .assertion => "assertion failed"
  | .stackError => "stack/heap collision"
  | .bounds => "index out of bounds"
  | .memoryAccess => "invalid memory access"
  | .invalidInstruction => "invalid instruction"
  | .stackLow => "stack underflow"
  | .heapLow => "heap underflow"
  | .callback => "no callback, or invalid callback"
  | .native => "native function failed"
  | .divide => "divide by zero"
  | .sleep => "go into sleepmode"
  | .invalidState => "invalid state for this access"
  | .memory => "out of memory"
  | .format => "invalid file format"
  | .version => "file is for a newer version of the AMX"
  | .notFound => "function not found"
  | .index => "invalid index parameter (bad entry point)"
  | .debug => "debugger cannot run"
  | .init => "AMX not initialized (or doubly initialized)"
  | .userData => "unable to set user data field (table full)"
  | .initJit => "cannot initialize the JIT"
  | .params => "parameter error"
  | .domain => "domain error, expression result does not fit in range"
  | .general => "general error (unknown or unspecific error)"

@[simp] theorem ofCode_code (f : Fault) : ofCode f.code = some f := by
  cases f <;> rfl

theorem ofCode_eq_none_iff {status : Cell} : ofCode status = none ↔ status = 0 := by
  simp [ofCode]

end Fault

end PawnNative
