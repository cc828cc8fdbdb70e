import LoopAudit.Check.Failure
import LoopAudit.Implementation.Record

/-! The generated loop nests held against the domains they have to cover. -/

namespace LoopAudit

def Point.before (a b : String × Int) : Bool := a.1 < b.1 || (a.1 == b.1 && a.2 ≤ b.2)

def Point.restrict (p : Point) (shown : List String) : Point :=
  ⟨(p.coords.filter fun c => shown.contains c.1).mergeSort Point.before⟩

namespace Implementation

open Check (algebra)

def footprint (k : Kernel) (inames : List String) (s : IntegerSet) :
    Except SetError IntegerSet := do
  (← s.intersect k.assumptions).projectOntoDims inames

def unionOf (first : IntegerSet) (rest : List IntegerSet) : Except SetError IntegerSet :=
  rest.foldlM IntegerSet.union first

def witness (shown : List String) (a b : IntegerSet) : Except SetError (Option Point) := do
  let p ← (← (← a.subtract b).coalesce).sample
  .ok (p.map fun p => p.restrict shown)

def covers (k : Kernel) (code : Option String) (id : String) (pieces : List IntegerSet) :
    Verdict :=
  match k.instruction? id with
  | none => .error (.unknownInstruction id)
  | some insn =>
    match pieces with
    | [] => .error (.emptyImplementation id)
    | first :: rest => do
      let generated ← algebra (unionOf first rest)
      let domain ← algebra (k.domainFor insn.inames)
      let desired ← algebra (footprint k insn.inames domain)
      let implemented ← algebra (footprint k insn.inames generated)
      if ← algebra (implemented.isEqual desired) then .ok ()
      else
        let shown := insn.inames ++ domain.space.params
        let superfluous ← algebra (witness shown implemented desired)
        let missing ← algebra (witness shown desired implemented)
        .error (.domainMismatch id implemented desired superfluous missing code)

def verify (k : Kernel) (record : Record) (code : Option String) : Verdict :=
  record.forM fun (id, pieces) => covers k code id pieces

end Implementation

end LoopAudit
