import LoopAudit.Check.Access

/-! Checks of what instructions write. -/

namespace LoopAudit.Check

inductive Storage where
  | argument
  | temporary (scope : Scope)
deriving DecidableEq, Repr

def storage (k : Kernel) (name : String) : Except DestinationFault Storage :=
  match k.argument? name, k.temporary? name with
  | some _, some _ => .error .ambiguous
  | some _, none => .ok .argument
  | none, some t => .ok (.temporary t.scope)
  | none, none => .error .unresolved

/-- Whether instances that differ in a loop variable with this tag run at the same time and share
the storage. -/
def sharedAcross (tag : Tag) : Storage → Bool
  | .argument => tag.isParallel
  | .temporary .perGroup => tag.isParallel && tag.axisKind? != some .group
  | .temporary _ => tag.isParallel && tag.axisKind?.isNone

def assigneeInames (k : Kernel) (insn : Instruction) : List String :=
  (Names.ofList (insn.assignee.assigneeIndex.flatMap Expr.dependencies)).filter k.inames.contains

def written (insn : Instruction) : Except CheckFailure String :=
  match insn.assignee.assigneeName? with
  | some name => .ok name
  | none => .error (.writeDestination insn.id insn.assignee.text .unresolved)

def racingInames (k : Kernel) (insn : Instruction) (place : Storage) : List String :=
  insn.inames.filter fun x =>
    (k.tag? x).any (sharedAcross · place) && !(assigneeInames k insn).contains x

def insnWriteRace (k : Kernel) (insn : Instruction) : Verdict := do
  let stray := strayInames k insn (assigneeInames k insn)
  if !stray.isEmpty then .error (.inactiveAccess insn.id .assignee stray)
  else
    let name ← written insn
    match storage k name with
    | .error reason => .error (.writeDestination insn.id name reason)
    | .ok (.temporary .undecided) => .error (.undecidedScope insn.id name)
    | .ok place =>
      let racing := racingInames k insn place
      if racing.isEmpty then .ok () else .error (.writeRace insn.id racing)

def writeRaces (k : Kernel) : Verdict := k.instructions.forM (insnWriteRace k)

/-- A name may be written if it is no loop variable, bounds no domain of the instruction, and is
declared exactly once, as a temporary where it is a parameter of a domain. -/
def insnDestination (k : Kernel) (insn : Instruction) : Verdict := do
  let name ← written insn
  let refuse (reason : DestinationFault) : Verdict :=
    .error (.writeDestination insn.id name reason)
  if k.inames.contains name then refuse .iterationVariable
  else do
    if k.params.contains name then
      if !k.isTemporary name then refuse .parameterNotTemporary
      else do
        let domain ← algebra (k.domainFor insn.inames)
        if domain.space.params.contains name then refuse .selfReferentialBound
    match storage k name with
    | .error reason => refuse reason
    | .ok _ => .ok ()

def writeDestinations (k : Kernel) : Verdict := k.instructions.forM (insnDestination k)

end LoopAudit.Check
