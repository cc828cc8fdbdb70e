import LoopAudit.Kernel

/-! What the checks of a kernel report. -/

namespace LoopAudit

inductive AccessSite where
  | expression
  | assignee
deriving DecidableEq, Repr

def AccessSite.text : AccessSite → String
  | .expression => "expression"
  | .assignee => "assignee"

inductive DestinationFault where
  | iterationVariable
  | parameterNotTemporary
  | selfReferentialBound
  | unresolved
  | ambiguous
deriving DecidableEq, Repr

def DestinationFault.text : DestinationFault → String
  | .iterationVariable => "iteration variables may not be written"
  | .parameterNotTemporary => "it is a domain parameter but not a temporary variable"
  | .selfReferentialBound => "it bounds the domain the instruction runs in"
  | .unresolved => "it is not a temporary, an argument or a domain parameter"
  | .ambiguous => "it is declared both as a temporary and as an argument"

inductive FailureKind where
  | axisCoverage
  | axisConflict
  | inactiveAccess
  | writeRace
  | dataDependentBounds
  | outOfBounds
  | writeDestination
  | domainMismatch
  | usage
deriving DecidableEq, Repr

def FailureKind.text : FailureKind → String
  | .axisCoverage => "AxisCoverage"
  | .axisConflict => "AxisConflict"
  | .inactiveAccess => "InactiveAccess"
  | .writeRace => "WriteRaceCondition"
  | .dataDependentBounds => "DataDependentBounds"
  | .outOfBounds => "OutOfBoundsAccess"
  | .writeDestination => "WriteDestination"
  | .domainMismatch => "DomainMismatch"
  | .usage => "Usage"

inductive CheckFailure where
  | axisCoverage (insn : String) (kind : AxisKind) (available used : List Nat)
  | unresolvedAutoLocal (insn iname : String)
  | orphanedLocalAxis (axis : Nat)
  | axisConflict (insn : String) (tag : Tag) (first second : String)
  | inactiveAccess (insn : String) (site : AccessSite) (inames : List String)
  | writeRace (insn : String) (inames : List String)
  | undecidedScope (insn temporary : String)
  | writeDestination (insn target : String) (reason : DestinationFault)
  | dataDependentBounds (domain : Nat) (parameter : String) (parallel : List String)
  | subscriptArity (insn reference : String) (got expected : Nat)
  | outOfBounds (insn reference : String)
  | domainMismatch (insn : String) (implemented desired : IntegerSet)
      (superfluous missing : Option Point) (code : Option String)
  | unknownInstruction (insn : String)
  | emptyImplementation (insn : String)
  | setAlgebra (error : SetError)
deriving Repr

namespace CheckFailure

def axesText (axes : List Nat) : String :=
  ",".intercalate (axes.map fun (a : Nat) => Decimal.text a)

def namesText (names : List String) : String := ", ".intercalate names

def mismatched (xs ys : List Nat) : List Nat :=
  (xs.filter (!ys.contains ·) ++ ys.filter (!xs.contains ·)).mergeSort

def witnessText (superfluous missing : Option Point) : String :=
  "\n".intercalate
    ((superfluous.toList.map fun p => "sample point implemented, but not desired: " ++ p.text) ++
      missing.toList.map fun p => "sample point desired, but not implemented: " ++ p.text)

def message : CheckFailure → String
  | axisCoverage insn kind available used =>
    "instruction '" ++ insn ++ "' does not use all " ++ kind.text ++
      " hardware axes (available: " ++ axesText available ++ " used: " ++ axesText used ++
      "; mismatched: " ++ axesText (mismatched available used) ++ ")"
  | unresolvedAutoLocal insn iname =>
    "instruction '" ++ insn ++ "': iname '" ++ iname ++
      "' still carries an automatic local-axis tag"
  | orphanedLocalAxis axis =>
    "user-requested local hardware axis " ++ Decimal.text axis ++ " has no iname mapped to it"
  | axisConflict insn tag first second =>
    "instruction '" ++ insn ++ "' has multiple inames tagged '" ++ tag.text ++ "': " ++
      namesText [first, second]
  | inactiveAccess insn site inames =>
    site.text ++ " of instruction '" ++ insn ++
      "' references inames the instruction does not run within: " ++ namesText inames
  | writeRace insn inames =>
    "instruction '" ++ insn ++ "' contains a write race: it runs across parallel iname(s) '" ++
      namesText inames ++ "' not referenced in the assignee index"
  | undecidedScope insn temporary =>
    "temporary '" ++ temporary ++ "' written by instruction '" ++ insn ++
      "' has no decided memory scope"
  | writeDestination insn target reason =>
    "instruction '" ++ insn ++ "' may not write '" ++ target ++ "': " ++ reason.text
  | dataDependentBounds domain parameter parallel =>
    "domain " ++ Decimal.text domain ++ " has a data-dependent parameter '" ++ parameter ++
      "' and contains parallel inames '" ++ namesText parallel ++ "'"
  | subscriptArity insn reference got expected =>
    "subscript '" ++ reference ++ "' in instruction '" ++ insn ++
      "' has the wrong number of indices (got: " ++ Decimal.text got ++ ", expected: " ++
      Decimal.text expected ++ ")"
  | outOfBounds insn reference =>
    "'" ++ reference ++ "' in instruction '" ++ insn ++ "' accesses out-of-bounds array element"
  | domainMismatch insn implemented desired superfluous missing _ =>
    "sanity check failed: implemented and desired domain for instruction '" ++ insn ++
      "' do not match\n\nimplemented: " ++ implemented.text ++ "\n\ndesired: " ++ desired.text ++
      "\n\n" ++ witnessText superfluous missing
  | unknownInstruction insn => "no instruction with id '" ++ insn ++ "'"
  | emptyImplementation insn =>
    "no implemented domain pieces recorded for instruction '" ++ insn ++ "'"
  | setAlgebra error => error.message

def report (e : CheckFailure) : String :=
  match e with
  | domainMismatch _ _ _ _ _ (some code) =>
    "code generated for mismatched domain:\n" ++ code ++ "\n" ++ e.message
  | _ => e.message

def code : CheckFailure → String
  | axisCoverage .. => "polyguard::axis_coverage"
  | unresolvedAutoLocal .. => "polyguard::usage::auto_local"
  | orphanedLocalAxis .. => "polyguard::axis_coverage::orphaned"
  | axisConflict .. => "polyguard::axis_conflict"
  | inactiveAccess .. => "polyguard::inactive_access"
  | writeRace .. => "polyguard::write_race"
  | undecidedScope .. => "polyguard::usage::undecided_scope"
  | writeDestination .. => "polyguard::write_destination"
  | dataDependentBounds .. => "polyguard::data_dependent_bounds"
  | subscriptArity .. => "polyguard::out_of_bounds::arity"
  | outOfBounds .. => "polyguard::out_of_bounds"
  | domainMismatch .. => "polyguard::domain_mismatch"
  | unknownInstruction .. => "polyguard::usage::unknown_instruction"
  | emptyImplementation .. => "polyguard::usage::empty_implementation"
  | setAlgebra error => error.code

def help : CheckFailure → Option String
  | axisCoverage .. =>
    some "every non-boostable instruction must run within an iname for each grid axis"
  | unresolvedAutoLocal .. => some "assign concrete local axes before checking"
  | undecidedScope .. => some "decide between local and private storage before checking"
  | setAlgebra error => error.help
  | _ => none

def kind : CheckFailure → FailureKind
  | axisCoverage .. => .axisCoverage
  | orphanedLocalAxis .. => .axisCoverage
  | axisConflict .. => .axisConflict
  | inactiveAccess .. => .inactiveAccess
  | writeRace .. => .writeRace
  | dataDependentBounds .. => .dataDependentBounds
  | subscriptArity .. => .outOfBounds
  | outOfBounds .. => .outOfBounds
  | writeDestination .. => .writeDestination
  | domainMismatch .. => .domainMismatch
  | unresolvedAutoLocal .. => .usage
  | undecidedScope .. => .usage
  | unknownInstruction .. => .usage
  | emptyImplementation .. => .usage
  | setAlgebra _ => .usage

def insn? : CheckFailure → Option String
  | axisCoverage insn .. => some insn
  | unresolvedAutoLocal insn _ => some insn
  | axisConflict insn .. => some insn
  | inactiveAccess insn .. => some insn
  | writeRace insn _ => some insn
  | undecidedScope insn _ => some insn
  | writeDestination insn .. => some insn
  | subscriptArity insn .. => some insn
  | outOfBounds insn _ => some insn
  | domainMismatch insn .. => some insn
  | unknownInstruction insn => some insn
  | emptyImplementation insn => some insn
  | orphanedLocalAxis _ => none
  | dataDependentBounds .. => none
  | setAlgebra _ => none

end CheckFailure

abbrev Verdict := Except CheckFailure Unit

def Check.algebra {α : Type} (r : Except SetError α) : Except CheckFailure α :=
  r.mapError .setAlgebra

end LoopAudit
