import PawnNative.Cell

/-! # The instruction set

    Every operation of the abstract machine has a number (its code), a mnemonic
    and an operand shape. The order of the constructors of `Opcode` is the order
    of the codes, so `all` lists the set by code and `ofCode?` is a look-up in it.
-/

namespace PawnNative

/-- How many operand cells follow an opcode cell. -/
inductive Arity where
  /-- Always this many cells. -/
  | fixed (count : Nat)
  /-- A record count, a default target, then a value and a target for each record. -/
  | caseTable
  /-- A byte length, then that many bytes rounded up to whole cells. -/
  | payload
  deriving DecidableEq, Repr

/-- An operation of the abstract machine. -/
inductive Opcode where
  | invalid | loadPri | loadAlt | loadSPri | loadSAlt | lrefPri | lrefAlt | lrefSPri | lrefSAlt
  | loadI | lodbI | constPri | constAlt | addrPri | addrAlt | storPri | storAlt | storSPri
  | storSAlt | srefPri | srefAlt | srefSPri | srefSAlt | storI | strbI | lidx | lidxB | idxaddr
  | idxaddrB | alignPri | alignAlt | lctrl | sctrl | movePri | moveAlt | xchg | pushPri
  | pushAlt | pushR | pushC | push | pushS | popPri | popAlt | stack | heap | proc | ret | retn
  | call | callPri | jump | jrel | jzer | jnz | jeq | jneq | jless | jleq | jgrtr | jgeq
  | jsless | jsleq | jsgrtr | jsgeq | shl | shr | sshr | shlCPri | shlCAlt | shrCPri | shrCAlt
  | smul | sdiv | sdivAlt | umul | udiv | udivAlt | add | sub | subAlt | and | or | xor | not
  | neg | invert | addC | smulC | zeroPri | zeroAlt | zero | zeroS | signPri | signAlt | eq
  | neq | less | leq | grtr | geq | sless | sleq | sgrtr | sgeq | eqCPri | eqCAlt | incPri
  | incAlt | inc | incS | incI | decPri | decAlt | dec | decS | decI | movs | cmps | fill
  | halt | bounds | sysreqPri | sysreqC | file | line | symbol | srange | jumpPri | switch
  | casetbl | swapPri | swapAlt | pushAdr | nop | sysreqN | symtag | brk
  deriving DecidableEq, Repr, Inhabited

namespace Opcode

/-- The instruction set, by code. -/
def all : Array Opcode := #[
  .invalid, .loadPri, .loadAlt, .loadSPri, .loadSAlt, .lrefPri, .lrefAlt, .lrefSPri, .lrefSAlt,
  .loadI, .lodbI, .constPri, .constAlt, .addrPri, .addrAlt, .storPri, .storAlt, .storSPri,
  .storSAlt, .srefPri, .srefAlt, .srefSPri, .srefSAlt, .storI, .strbI, .lidx, .lidxB, .idxaddr,
  .idxaddrB, .alignPri, .alignAlt, .lctrl, .sctrl, .movePri, .moveAlt, .xchg, .pushPri,
  .pushAlt, .pushR, .pushC, .push, .pushS, .popPri, .popAlt, .stack, .heap, .proc, .ret, .retn,
  .call, .callPri, .jump, .jrel, .jzer, .jnz, .jeq, .jneq, .jless, .jleq, .jgrtr, .jgeq,
  .jsless, .jsleq, .jsgrtr, .jsgeq, .shl, .shr, .sshr, .shlCPri, .shlCAlt, .shrCPri, .shrCAlt,
  .smul, .sdiv, .sdivAlt, .umul, .udiv, .udivAlt, .add, .sub, .subAlt, .and, .or, .xor, .not,
  .neg, .invert, .addC, .smulC, .zeroPri, .zeroAlt, .zero, .zeroS, .signPri, .signAlt, .eq,
  .neq, .less, .leq, .grtr, .geq, .sless, .sleq, .sgrtr, .sgeq, .eqCPri, .eqCAlt, .incPri,
  .incAlt, .inc, .incS, .incI, .decPri, .decAlt, .dec, .decS, .decI, .movs, .cmps, .fill,
  .halt, .bounds, .sysreqPri, .sysreqC, .file, .line, .symbol, .srange, .jumpPri, .switch,
  .casetbl, .swapPri, .swapAlt, .pushAdr, .nop, .sysreqN, .symtag, .brk]

def code (op : Opcode) : Cell := BitVec.ofNat 32 op.ctorIdx

/-- The operation with this number; cells outside the set name none. -/
def ofCode? (c : Cell) : Option Opcode := all[c.toNat]?

def mnemonic : Opcode → String
  | .invalid => "none"
  | .loadPri => "load.pri"
  | .loadAlt => "load.alt"
  | .loadSPri => "load.s.pri"
  | .loadSAlt => "load.s.alt"
  | .lrefPri => "lref.pri"
  | .lrefAlt => "lref.alt"
  | .lrefSPri => "lref.s.pri"
  | .lrefSAlt => "lref.s.alt"
  | .loadI => "load.i"
  | .lodbI => "lodb.i"
  | .constPri => "const.pri"
  | .constAlt => "const.alt"
  | .addrPri => "addr.pri"
  | .addrAlt => "addr.alt"
  | .storPri => "stor.pri"
  | .storAlt => "stor.alt"
  | .storSPri => "stor.s.pri"
  | .storSAlt => "stor.s.alt"
  | .srefPri => "sref.pri"
  | .srefAlt => "sref.alt"
  | .srefSPri => "sref.s.pri"
  | .srefSAlt => "sref.s.alt"
  | .storI => "stor.i"
  | .strbI => "strb.i"
  | .lidx => "lidx"
  | .lidxB => "lidx.b"
  | .idxaddr => "idxaddr"
  | .idxaddrB => "idxaddr.b"
  | .alignPri => "align.pri"
  | .alignAlt => "align.alt"
  | .lctrl => "lctrl"
  | .sctrl => "sctrl"
  | .movePri => "move.pri"
  | .moveAlt => "move.alt"
  | .xchg => "xchg"
  | .pushPri => "push.pri"
  | .pushAlt => "push.alt"
  | .pushR => "push.r"
  | .pushC => "push.c"
  | .push => "push"
  | .pushS => "push.s"
  | .popPri => "pop.pri"
  | .popAlt => "pop.alt"
  | .stack => "stack"
  | .heap => "heap"
  | .proc => "proc"
  | .ret => "ret"
  | .retn => "retn"
  | .call => "call"
  | .callPri => "call.pri"
  | .jump => "jump"
  | .jrel => "jrel"
  | .jzer => "jzer"
  | .jnz => "jnz"
  | .jeq => "jeq"
  | .jneq => "jneq"
  | .jless => "jless"
  | .jleq => "jleq"
  | .jgrtr => "jgrtr"
  | .jgeq => "jgeq"
  | .jsless => "jsless"
  | .jsleq => "jsleq"
  | .jsgrtr => "jsgrtr"
  | .jsgeq => "jsgeq"
  | .shl => "shl"
  | .shr => "shr"
  | .sshr => "sshr"
  | .shlCPri => "shl.c.pri"
  | .shlCAlt => "shl.c.alt"
  | .shrCPri => "shr.c.pri"
  | .shrCAlt => "shr.c.alt"
  | .smul => "smul"
  | .sdiv => "sdiv"
  | .sdivAlt => "sdiv.alt"
  | .umul => "umul"
  | .udiv => "udiv"
  | .udivAlt => "udiv.alt"
  | .add => "add"
  | .sub => "sub"
  | .subAlt => "sub.alt"
  | .and => "and"
  | .or => "or"
  | .xor => "xor"
  | .not => "not"
  | .neg => "neg"
  | .invert => "invert"
  | .addC => "add.c"
  | .smulC => "smul.c"
  | .zeroPri => "zero.pri"
  | .zeroAlt => "zero.alt"
  | .zero => "zero"
  | .zeroS => "zero.s"
  | .signPri => "sign.pri"
  | .signAlt => "sign.alt"
  | .eq => "eq"
  | .neq => "neq"
  | .less => "less"
  | .leq => "leq"
  | .grtr => "grtr"
  | .geq => "geq"
  | .sless => "sless"
  | .sleq => "sleq"
  | .sgrtr => "sgrtr"
  | .sgeq => "sgeq"
  | .eqCPri => "eq.c.pri"
  | .eqCAlt => "eq.c.alt"
  | .incPri => "inc.pri"
  | .incAlt => "inc.alt"
  | .inc => "inc"
  | .incS => "inc.s"
  | .incI => "inc.i"
  | .decPri => "dec.pri"
  | .decAlt => "dec.alt"
  | .dec => "dec"
  | .decS => "dec.s"
  | .decI => "dec.i"
  | .movs => "movs"
  | .cmps => "cmps"
  | .fill => "fill"
  | .halt => "halt"
  | .bounds => "bounds"
  | .sysreqPri => "sysreq.pri"
  | .sysreqC => "sysreq.c"
  | .file => "file"
  | .line => "line"
  | .symbol => "symbol"
  | .srange => "srange"
  | .jumpPri => "jump.pri"
  | .switch => "switch"
  | .casetbl => "casetbl"
  | .swapPri => "swap.pri"
  | .swapAlt => "swap.alt"
  | .pushAdr => "push.adr"
  | .nop => "nop"
  | .sysreqN => "sysreq.n"
  | .symtag => "symtag"
  | .brk => "break"

def ofMnemonic? (name : String) : Option Opcode := all.find? fun op => op.mnemonic == name

def arity : Opcode → Arity
  | .casetbl => .caseTable
  | .file | .symbol => .payload
  | .line | .srange | .sysreqN => .fixed 2
  | .loadPri | .loadAlt | .loadSPri | .loadSAlt | .lrefPri | .lrefAlt | .lrefSPri
  | .lrefSAlt | .lodbI | .constPri | .constAlt | .addrPri | .addrAlt | .storPri | .storAlt
  | .storSPri | .storSAlt | .srefPri | .srefAlt | .srefSPri | .srefSAlt | .strbI | .lidxB
  | .idxaddrB | .alignPri | .alignAlt | .lctrl | .sctrl | .pushR | .pushC | .push | .pushS
  | .stack | .heap | .call | .jump | .jrel | .jzer | .jnz | .jeq | .jneq | .jless | .jleq
  | .jgrtr | .jgeq | .jsless | .jsleq | .jsgrtr | .jsgeq | .shlCPri | .shlCAlt | .shrCPri
  | .shrCAlt | .addC | .smulC | .zero | .zeroS | .eqCPri | .eqCAlt | .inc | .incS | .dec
  | .decS | .movs | .cmps | .fill | .halt | .bounds | .sysreqC | .switch | .pushAdr
  | .symtag => .fixed 1
  | _ => .fixed 0

/-- Whether the first operand is the code address that control may go to. -/
def isBranch : Opcode → Bool
  | .call | .jump | .jzer | .jnz | .jeq | .jneq | .jless | .jleq | .jgrtr | .jgeq
  | .jsless | .jsleq | .jsgrtr | .jsgeq => true
  | _ => false

/-- The name shown for a cell, whether or not it is the code of an operation. -/
def nameOf (c : Cell) : String := ((ofCode? c).map mnemonic).getD "(unknown)"

set_option maxRecDepth 4000 in
theorem size_all : all.size = 138 := rfl

set_option maxRecDepth 4000 in
@[simp] theorem ofCode?_code (op : Opcode) : ofCode? op.code = some op := by
  cases op <;> rfl

end Opcode

end PawnNative
