import SyscallFilter.Log
import SyscallFilter.Verification.Basic

/-! The log of a verification, as far as it went. -/
namespace SyscallFilter.Verification

/-- How many of the tuples of a number are tried. -/
def shareOf (trial : Trial) (subject : String) : String :=
  s!"Checking {trial.cases.limit} of {trial.cases.total} argument tuples of " ++
    s!"{subject} {trial.number}."

def listedLog (trial : Trial) : List Log.Line :=
  (if trial.cases.truncated then [⟨.warn, shareOf trial "syscall"⟩] else []) ++
    if trial.passed then
      [⟨.debug, s!"Syscall {trial.number}: {trial.checked} argument tuples match the policy."⟩]
    else []

def unlistedLog (trial : Trial) : List Log.Line :=
  if trial.cases.truncated then [⟨.debug, shareOf trial "unlisted syscall"⟩] else []

/-- The line at the end of a verification that passed. -/
def summary (report : Report) : String :=
  s!"Program matches the policy for {report.syscallsChecked} syscalls " ++
    s!"({report.casesChecked} argument tuples), {report.unlistedProbes} unlisted syscalls " ++
    s!"and {report.foreignProbes} foreign architecture inputs."

/-- Each kind of calls is summed up once all of them have passed. -/
def log (verification : Verification) : List Log.Line :=
  let listedPassed := verification.listed.all Trial.passed
  let unlistedPassed := listedPassed && verification.unlisted.all Trial.passed
  let foreignPassed := unlistedPassed && verification.foreign.all Trial.passed
  verification.listed.flatMap listedLog ++
    verification.unlisted.flatMap unlistedLog ++
    (if unlistedPassed then
      [⟨.debug, s!"{verification.report.unlistedProbes} unlisted syscalls return " ++
        s!"{verification.policy.defaultAction.text}."⟩]
    else []) ++
    (if foreignPassed && verification.settings.checkForeign then
      [⟨.debug, s!"Foreign architectures return {verification.policy.mismatchAction.text}."⟩]
    else []) ++
    (if foreignPassed then [⟨.info, summary verification.report⟩] else [])

end SyscallFilter.Verification
