import PawnNative.Native.Program
import PawnNative.Single.Log

/-! # Float natives

    Cells can hold single-precision numbers by their bit patterns. The eight
    natives here compute with them. The compiler knows them by name and can do
    their work in place.
-/

namespace PawnNative

/-- The argument with this number, counted from 1. -/
def NativeCall.param (c : NativeCall) (n : Nat) : NativeProgram Cell :=
  match c.params[n]? with
  | some v => .done v
  | none => .fail .params

/-- A native that computes with single-precision numbers. -/
inductive FloatNative where
  | float | floatabs | floatadd | floatsub | floatmul | floatdiv | floatsqroot | floatlog
  deriving DecidableEq, Repr

namespace FloatNative

def all : List FloatNative :=
  [.float, .floatabs, .floatadd, .floatsub, .floatmul, .floatdiv, .floatsqroot, .floatlog]

def name : FloatNative → String
  | .float => "float"
  | .floatabs => "floatabs"
  | .floatadd => "floatadd"
  | .floatsub => "floatsub"
  | .floatmul => "floatmul"
  | .floatdiv => "floatdiv"
  | .floatsqroot => "floatsqroot"
  | .floatlog => "floatlog"

def ofName? (name : String) : Option FloatNative := all.find? fun f => f.name == name

@[simp] theorem ofName?_name (f : FloatNative) : ofName? f.name = some f := by
  cases f <;> rfl

def arity : FloatNative → Nat
  | .float | .floatabs | .floatsqroot => 1
  | .floatadd | .floatsub | .floatmul | .floatdiv | .floatlog => 2

def unary (f : Cell → Cell) : Native := fun c => do
  return f (← c.param 1)

def binary (f : Cell → Cell → Cell) : Native := fun c => do
  let x ← c.param 1
  let y ← c.param 2
  return f x y

/-- The native as a function of the host. -/
def native : FloatNative → Native
  | .float => unary Single.ofCell
  | .floatabs => unary Single.abs
  | .floatadd => binary Single.add
  | .floatsub => binary Single.sub
  | .floatmul => binary Single.mul
  | .floatdiv => binary Single.div
  | .floatsqroot => unary Single.sqrt
  | .floatlog => binary Single.log

def library : List (String × Native) := all.map fun f => (f.name, f.native)

end FloatNative

end PawnNative
