import PawnNative.Instance

/-! # Summaries

    One line of text that shows an instance: the fields of its header, its
    registers, the arguments that wait and the number of registered natives.
-/

namespace PawnNative

namespace Summary

/-- A named record of fields. -/
def record (name : String) (fields : List (String × String)) : String :=
  name ++ " \x7b " ++ ", ".intercalate (fields.map fun (k, v) => k ++ ": " ++ v) ++ " \x7d"

def header (h : Header) : String :=
  record "AmxHeader"
    [("size", h.size.decimal), ("magic", Nat.repr h.magic.toNat),
     ("file_version", Nat.repr h.fileVersion.toNat),
     ("amx_version", Nat.repr h.machineVersion.toNat), ("flags", Int.repr h.flags.toInt),
     ("defsize", Int.repr h.recordSize.toInt), ("cod", h.cod.decimal), ("dat", h.dat.decimal),
     ("hea", h.hea.decimal), ("stp", h.stp.decimal), ("cip", h.cip.decimal),
     ("publics", h.publics.decimal), ("natives", h.natives.decimal),
     ("libraries", h.libraries.decimal), ("pubvars", h.pubvars.decimal),
     ("tags", h.tags.decimal), ("nametable", h.nametable.decimal)]

def registers (r : Registers) : String :=
  record "Registers"
    [("pri", r.pri.decimal), ("alt", r.alt.decimal), ("frm", r.frm.decimal),
     ("stk", r.stk.decimal), ("hea", r.hea.decimal), ("hlw", r.hlw.decimal),
     ("stp", r.stp.decimal), ("cip", r.cip.decimal)]

end Summary

/-- A line of text that shows the instance. -/
def Instance.summary (vm : Instance) : String :=
  Summary.record "Amx"
    [("header", Summary.header vm.header), ("regs", Summary.registers vm.regs),
     ("paramcount", Nat.repr vm.pending), ("registered_natives", Nat.repr vm.natives.size)]

end PawnNative
