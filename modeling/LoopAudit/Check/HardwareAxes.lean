import LoopAudit.Check.Failure

/-! Checks of the loop variables that run on hardware axes. -/

namespace LoopAudit.Check

def usedAxes (k : Kernel) (kind : AxisKind) (insn : Instruction) : List Nat :=
  let axes := insn.inames.filterMap fun x =>
    (k.tag? x).bind fun t => if t.axisKind? = some kind then t.axisIndex? else none
  axes.eraseDups.mergeSort

def usesAll (insn : Instruction) (kind : AxisKind) (available used : List Nat) : Verdict :=
  if used = available then .ok () else .error (.axisCoverage insn.id kind available used)

def insnAxisCoverage (k : Kernel) (insn : Instruction) : Verdict :=
  match insn.inames.find? fun x => k.tag? x = some .autoLocal with
  | some x => .error (.unresolvedAutoLocal insn.id x)
  | none => do
    usesAll insn .group (List.range k.grid.group.length) (usedAxes k .group insn)
    usesAll insn .item (List.range k.grid.item.length) (usedAxes k .item insn)

def axisCoverage (k : Kernel) : Verdict :=
  (k.instructions.filter fun i => !i.boostable).forM (insnAxisCoverage k)

def firstConflict? (k : Kernel) (seen : List (String × String)) :
    List String → Option (Tag × String × String)
  | [] => none
  | x :: xs =>
    match k.tag? x with
    | none => firstConflict? k seen xs
    | some tag =>
      match tag.uniqueKey? with
      | none => firstConflict? k seen xs
      | some key =>
        match seen.lookup key with
        | some first => some (tag, first, x)
        | none => firstConflict? k ((key, x) :: seen) xs

def axisConflicts (k : Kernel) : Verdict :=
  k.instructions.forM fun insn =>
    match firstConflict? k [] insn.inames with
    | some (tag, first, second) => .error (.axisConflict insn.id tag first second)
    | none => .ok ()

def orphanedAxes (k : Kernel) : Verdict :=
  k.localSizes.forM fun size =>
    if k.tags.any fun t => t.2 = .localAxis size.1 then .ok ()
    else .error (.orphanedLocalAxis size.1)

def dataDependentBounds (k : Kernel) : Verdict :=
  k.domains.zipIdx.forM fun (domain, index) =>
    let parallel := Names.ofList
      (domain.space.dims.filter fun d => (k.tag? d).any Tag.isParallel)
    if parallel.isEmpty then .ok ()
    else
      match domain.space.params.find? k.isTemporary with
      | some p => .error (.dataDependentBounds index p parallel)
      | none => .ok ()

end LoopAudit.Check
