import PawnNative.Compile.Stubs
import PawnNative.Native.Float

/-! # Float natives without a call

    The eight float natives can be put into the code in place of a call. The code
    reads the arguments from the stack and leaves the result in the primary
    register, as the native would.
-/

namespace PawnNative

open X64 Convention

namespace FloatNative

/-- An argument on the stack, when the first one lies `first` bytes above the top. -/
def argument (first n : Nat) : Mem := { base := stk, disp := BitVec.ofNat 32 (first + 4 * n) }

/-- An operation on two arguments. -/
def binaryLines (op : FloatOp) (first : Nat) : List Line :=
  [.op (.movss 0 (argument first 0)),
   .op (.float op 0 (argument first 1)),
   .op (.movdRX pri 0)]

/-- The code of a float native, when its first argument lies `first` bytes above the top. -/
def lines (f : FloatNative) (first : Nat) : List Line :=
  match f with
  | .float => [.op (.float .ofCell 0 (argument first 0)), .op (.movdRX pri 0)]
  | .floatabs =>
    [.op (.load .d pri (argument first 0)), .op (.aluRI .and .d pri 0x7FFFFFFF)]
  | .floatadd => binaryLines .add first
  | .floatsub => binaryLines .sub first
  | .floatmul => binaryLines .mul first
  | .floatdiv => binaryLines .div first
  | .floatsqroot => [.op (.float .sqrt 0 (argument first 0)), .op (.movdRX pri 0)]
  | .floatlog =>
    suspend ++
    [.op (.movss 0 (argument first 0)), .op (.movss 1 (argument first 1))] ++
    callHelper .floatLog ++ [.op (.movdRX pri 0)] ++ resume

end FloatNative

end PawnNative
