import SyscallFilter.Bpf.Fault
import SyscallFilter.Json.Shape

/-! How thorough a verification is. -/
namespace SyscallFilter

structure Settings where
  /-- How many instructions a run may execute. -/
  instructionLimit : Nat := Bpf.maxLength
  /-- How many argument tuples are checked for a number. -/
  caseLimit : Nat := 65536
  /-- Numbers below this one are checked even if nothing mentions them. -/
  probeLimit : Nat := 1024
  /-- Whether calls of other architectures are checked. -/
  checkForeign : Bool := true
  deriving DecidableEq, Repr

inductive SettingsError where
  | invalidCaseLimit
  deriving DecidableEq, Repr

def SettingsError.message : SettingsError → String
  | invalidCaseLimit => "The case limit must be at least 1."

namespace Settings

/-- A verification that checks no tuple at all is refused. -/
def check (settings : Settings) : Except SettingsError Unit :=
  if settings.caseLimit = 0 then .error .invalidCaseLimit else .ok ()

/-- A field, or its default if it is missing. -/
def field {α : Type} (decode : Json → Option α) (default : α) : Option Json → Option α
  | none => some default
  | some json => decode json

def ofJson? (json : Json) : Option Settings := do
  let default : Settings := {}
  match ← json.looseRecord?
      ["instruction_limit", "case_limit", "syscall_probe_limit", "check_arch_mismatch"] with
  | [instructionLimit, caseLimit, probeLimit, checkForeign] =>
    return {
      instructionLimit := ← field (Json.below? UInt64.size) default.instructionLimit instructionLimit
      caseLimit := ← field (Json.below? UInt64.size) default.caseLimit caseLimit
      probeLimit := ← field (Json.below? UInt32.size) default.probeLimit probeLimit
      checkForeign := ← field Json.bool? default.checkForeign checkForeign }
  | _ => none

/-- The settings in a text, checked. -/
def read (text : String) : Except (ReadError SettingsError) Settings :=
  match (Json.parse? text).bind ofJson? with
  | none => .error .malformed
  | some settings => do
    settings.check.mapError .rejected
    return settings

end Settings

end SyscallFilter
