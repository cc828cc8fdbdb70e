import LoopAudit.Check.Suite
import LoopAudit.CommandLine.Request
import LoopAudit.Implementation.Comparison
import LoopAudit.Kernel.Dump
import LoopAudit.Kernel.Snapshot

/-! Answers to requests: what is printed, and the exit code. -/

namespace LoopAudit.CommandLine

structure Outcome where
  output : String
  diagnostics : List String
  exitCode : Nat
deriving DecidableEq, Repr

abbrev Files := String → Option String

namespace Outcome

def success (lines : List String) : Outcome := ⟨String.join (lines.map (· ++ "\n")), [], 0⟩

def failure (lines diagnostics : List String) : Outcome :=
  ⟨String.join (lines.map (· ++ "\n")), diagnostics, 1⟩

def settle : Except String Outcome → Outcome
  | .ok outcome => outcome
  | .error reason => failure [] [reason]

def readFile (files : Files) (path : String) : Except String String :=
  match files path with
  | some text => .ok text
  | none => .error ("failed to read " ++ path)

def loadKernel (files : Files) (path : String) : Except String Kernel := do
  (Kernel.load (← readFile files path)).mapError KernelError.message

def verdictLine (k : Kernel) : Verdict → String
  | .ok () => k.name ++ ": ok"
  | .error e => k.name ++ ": " ++ e.kind.text ++ " check failed"

def failureReport (k : Kernel) : Verdict → Option String
  | .ok () => none
  | .error e => some ("failing kernel after processing:\n" ++ k.dump ++ "\n" ++ e.report)

/-- Runs the suite on every kernel; all of them are loaded before the first is checked. -/
def check (files : Files) (kernels : List String) : Except String Outcome := do
  let verdicts := (← kernels.mapM (loadKernel files)).map fun k => (k, Check.run k)
  let lines := verdicts.map fun v => verdictLine v.1 v.2
  let failures := verdicts.filterMap fun v => failureReport v.1 v.2
  .ok (if failures.isEmpty then success lines else failure lines failures)

def orphans (files : Files) (kernel : String) : Except String Outcome := do
  let k ← loadKernel files kernel
  (Check.orphanedAxes k).mapError CheckFailure.message
  .ok (success [k.name ++ ": ok"])

def verify (files : Files) (kernel implemented : String) (code : Option String) :
    Except String Outcome := do
  let k ← loadKernel files kernel
  let record ← (Implementation.Record.read (← readFile files implemented)).mapError
    Implementation.RecordError.message
  let generated ← code.mapM (readFile files)
  (Implementation.verify k record generated).mapError CheckFailure.report
  .ok (success [k.name ++ ": " ++ Decimal.text record.length ++ " implemented domains match"])

def adviceLines (k : Kernel) (advisory : Advisory) : List String :=
  (k.name ++ ": max severity " ++ Decimal.text advisory.maxSeverity) ::
    advisory.messages.map fun p => "  [" ++ Decimal.text p.severity ++ "] " ++ p.message

def warningLines (policy : Policy) (k : Kernel) (advisory : Advisory) : List String :=
  (advisory.messages.filter fun p => policy.warnLevel ≤ p.severity).map fun p =>
    k.name ++ ": " ++ p.message

def advise (files : Files) (kernels : List String) (config : Option String)
    (values : List (String × Int)) : Except String Outcome := do
  let path := config.getD Config.fileName
  let some config := Config.load (files path) | .error ("failed to parse " ++ path)
  let config := config.withValues values
  let some device := config.device | .error "no [device] section in the configuration"
  let ks ← kernels.mapM (loadKernel files)
  let judged := ks.map fun k => (k, Advisory.advise k device config.parameters)
  let lines := judged.flatMap fun (k, advisory) => adviceLines k advisory
  let warnings := judged.flatMap fun (k, advisory) => warningLines config.policy k advisory
  let kept := Advisory.filterVariants device config.parameters config.policy ks
  if kept.length < ks.length then
    .ok (failure lines (warnings ++
      [Decimal.text (ks.length - kept.length) ++ " of " ++ Decimal.text ks.length ++
        " kernels reach severity " ++ Decimal.text config.policy.killLevel ++ " or above"]))
  else .ok { success lines with diagnostics := warnings }

end Outcome

def Request.run (files : Files) : Request → Outcome
  | check kernels => .settle (Outcome.check files kernels)
  | orphans kernel => .settle (Outcome.orphans files kernel)
  | verify kernel implemented code => .settle (Outcome.verify files kernel implemented code)
  | advise kernels config values => .settle (Outcome.advise files kernels config values)

def Stop.outcome : Stop → Outcome
  | .info text => ⟨text, [], 0⟩
  | .misuse reason => ⟨"", [reason], 2⟩

def run (files : Files) (args : List String) : Outcome :=
  match Request.read args with
  | .ok request => request.run files
  | .error stop => stop.outcome

end LoopAudit.CommandLine
