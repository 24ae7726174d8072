/-! The architectures a filter can be built for.

Every call carries the audit value of the calling convention it was made
through; a filter recognises its own architecture by that value. -/
namespace SyscallFilter

inductive Architecture where
  | x86_64
  | aarch64
  | riscv64
  deriving DecidableEq, Repr

namespace Architecture

def all : List Architecture := [x86_64, aarch64, riscv64]

/-- The value calls of this architecture carry: the machine number, marked as
64 bits wide and little endian. -/
def audit : Architecture → UInt32
  | x86_64 => 0xc000003e
  | aarch64 => 0xc00000b7
  | riscv64 => 0xc00000f3

def text : Architecture → String
  | x86_64 => "x86_64"
  | aarch64 => "aarch64"
  | riscv64 => "riscv64"

def ofText? (name : String) : Option Architecture :=
  all.find? (·.text == name)

/-- Values that a filter for this architecture has to turn away: those of the
other architectures, and the two extremes. -/
def foreignAudits (target : Architecture) : List UInt32 :=
  (all.filter (· ≠ target)).map audit ++ [0, 0xffffffff]

theorem mem_all (a : Architecture) : a ∈ all := by
  cases a <;> decide

theorem ofText?_text (a : Architecture) : ofText? a.text = some a := by
  cases a <;> decide

theorem audit_not_mem_foreignAudits (a : Architecture) : a.audit ∉ a.foreignAudits := by
  cases a <;> decide

end Architecture

end SyscallFilter
