import LoopAudit.Check.Failure
import LoopAudit.Expr.Range

/-! Checks of what instructions read and of the subscripts they use. -/

namespace LoopAudit.Check

def strayInames (k : Kernel) (insn : Instruction) (names : List String) : List String :=
  names.filter fun x => k.inames.contains x && !insn.inames.contains x

def inactiveReads (k : Kernel) : Verdict :=
  k.instructions.forM fun insn =>
    let stray := strayInames k insn insn.expression.dependencies
    if stray.isEmpty then .ok () else .error (.inactiveAccess insn.id .expression stray)

def extents? (k : Kernel) (name : String) : Option (List Expr) :=
  match k.argument? name with
  | some a => a.shape
  | none => (k.temporary? name).map fun t => t.shape

def withinExtents (bounds : IntegerSet) :
    List String → List Expr → Except SetError (Option IntegerSet)
  | _, [] => .ok (some bounds)
  | [], _ :: _ => .ok none
  | dim :: dims, extent :: extents =>
    match extent.linearize with
    | none => .ok none
    | some hi => do
      let slab ← IntegerSet.slab bounds.space dim .zero hi
      withinExtents (← bounds.intersect slab) dims extents

/-- One subscript stays within the extents at every point of the domain. It is passed over where
it reads names from outside, or where indices or extents are not affine. -/
def subscriptInBounds (insn : Instruction) (available : List String) (domain : IntegerSet)
    (aggregate : String) (index shape : List Expr) : Verdict :=
  let reference := (Expr.subscript aggregate index).text
  if !((index ++ shape).all fun e => e.dependencies.all available.contains) then .ok ()
  else if index.length ≠ shape.length then
    .error (.subscriptArity insn.id reference index.length shape.length)
  else do
    match ← algebra (Expr.accessRange domain index) with
    | none => .ok ()
    | some range =>
      match ← algebra (withinExtents (.univ range.space) range.space.dims shape) with
      | none => .ok ()
      | some bounds =>
        if ← algebra (range.isSubset bounds) then .ok ()
        else .error (.outOfBounds insn.id reference)

def subscriptsOf (insn : Instruction) : List (String × List Expr) :=
  insn.expression.subscripts ++ insn.assignee.subscripts

def insnInBounds (k : Kernel) (insn : Instruction) : Verdict := do
  let domain ← algebra (k.domainFor insn.inames)
  if domain.space.params.any k.isTemporary then .ok ()
  else do
    let reachable ← algebra (domain.intersect k.assumptions)
    (subscriptsOf insn).forM fun (aggregate, index) =>
      match extents? k aggregate with
      | none => .ok ()
      | some shape => subscriptInBounds insn domain.space.names reachable aggregate index shape

def arrayBounds (k : Kernel) : Verdict := k.instructions.forM (insnInBounds k)

end LoopAudit.Check
