import SyscallFilter.Bpf.Raw

/-! Changes to a program before it is loaded. -/
namespace SyscallFilter.Bpf

/-- A change at an index. Where there is no instruction at the index, nothing is changed. -/
inductive Edit where
  | set (index : Nat) (raw : RawInstruction)
  /-- Insert before the index; at the length, append. -/
  | insert (index : Nat) (raw : RawInstruction)
  | remove (index : Nat)
  /-- Exchange the two jump distances. -/
  | swap (index : Nat)
  | setCode (index : Nat) (code : UInt16)
  | setJt (index : Nat) (jt : UInt8)
  | setJf (index : Nat) (jf : UInt8)
  | setK (index : Nat) (k : UInt32)
  /-- Keep the instructions before the index. -/
  | truncate (index : Nat)
  deriving DecidableEq, Repr

def Edit.apply (program : RawProgram) : Edit → RawProgram
  | set index raw => List.set program index raw
  | insert index raw => List.insertIdx program index raw
  | remove index => List.eraseIdx program index
  | swap index => List.modify program index fun raw => { raw with jt := raw.jf, jf := raw.jt }
  | setCode index code => List.modify program index fun raw => { raw with code }
  | setJt index jt => List.modify program index fun raw => { raw with jt }
  | setJf index jf => List.modify program index fun raw => { raw with jf }
  | setK index k => List.modify program index fun raw => { raw with k }
  | truncate index => List.take index program

end SyscallFilter.Bpf
