import SyscallFilter.Bpf.Edit
import SyscallFilter.Bpf.Program
import SyscallFilter.PolicyFile
import SyscallFilter.RuleSet.Assembly
import SyscallFilter.Verification.Log
import SyscallFilter.Proofs.Loading
import SyscallFilter.Proofs.LoadFaults
import SyscallFilter.Proofs.Runs
import SyscallFilter.Proofs.Code
import SyscallFilter.Proofs.ConditionCode
import SyscallFilter.Proofs.RuleCode
import SyscallFilter.Proofs.ByteDistances
import SyscallFilter.Proofs.TableLookups
import SyscallFilter.Proofs.RuleValidation
import SyscallFilter.Proofs.Assembly
import SyscallFilter.Proofs.CodeLength
import SyscallFilter.Proofs.CaseOrder
import SyscallFilter.Proofs.Odometer
import SyscallFilter.Proofs.CheckSequence
import SyscallFilter.Proofs.AssembledChecks
import SyscallFilter.Proofs.Comparisons
import SyscallFilter.Proofs.ArgumentSampling
import SyscallFilter.Proofs.UniformArguments
import SyscallFilter.Proofs.OpenPaths
import SyscallFilter.Proofs.SharedConstants
import SyscallFilter.Proofs.MovedConstants
import SyscallFilter.Proofs.NumberProbes
import SyscallFilter.Proofs.SafeRuns
import SyscallFilter.Proofs.RawMachine
import SyscallFilter.Proofs.ProgramWords
import SyscallFilter.Proofs.Reports
import SyscallFilter.Proofs.ScannedPaths
import SyscallFilter.Proofs.UnseenWords
import SyscallFilter.Proofs.Accounting
import SyscallFilter.Proofs.FirstOccurrences
import SyscallFilter.Proofs.PolicyConstants
import SyscallFilter.Proofs.NumberClasses
import SyscallFilter.Proofs.Worklist
import SyscallFilter.Proofs.CandidateOrder
import SyscallFilter.Proofs.LastReturn
import SyscallFilter.Proofs.SampleCoverage
import SyscallFilter.Proofs.PolicyFiles
