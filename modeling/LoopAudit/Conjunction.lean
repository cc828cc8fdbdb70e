import LoopAudit.Sample

/-! Conjunctions: a system over a space, or a contradiction. -/

namespace LoopAudit

/-- A conjunction of constraints over a space. One that is known to be a contradiction is marked and
holds no constraints. -/
structure Conjunction where
  space : Space
  constraints : System
  isContradictory : Bool
deriving DecidableEq, Repr

namespace Conjunction

def Holds (b : Conjunction) (ρ : String → Int) : Prop :=
  b.isContradictory = false ∧ b.constraints.Holds ρ

def univ (space : Space) : Conjunction := ⟨space, [], false⟩

def empty (space : Space) : Conjunction := ⟨space, [], true⟩

def markEmpty (b : Conjunction) : Conjunction :=
  { b with constraints := [], isContradictory := true }

/-- Adds a constraint in place: the conjunction as it stands afterwards, and the fault that stopped
the change, if any. -/
def constrain (b : Conjunction) (c : Constraint) : Conjunction × Option SetError :=
  match c.form.vars.find? fun x => !b.space.contains x with
  | some x => (b, some (.unknownVariable x))
  | none =>
    if b.isContradictory then (b, none)
    else
      match b.constraints.insert c with
      | .error fault => (b, some fault)
      | .ok none => (b.markEmpty, none)
      | .ok (some s) => ({ b with constraints := s }, none)

def addConstraint (b : Conjunction) (c : Constraint) : Except SetError Conjunction :=
  outcome (b.constrain c)

def addConstraints (b : Conjunction) (cs : List Constraint) : Except SetError Conjunction :=
  cs.foldlM addConstraint b

def ofConstraints (space : Space) (cs : List Constraint) : Except SetError Conjunction :=
  (univ space).addConstraints cs

def rehome (b : Conjunction) (space : Space) : Except SetError Conjunction :=
  match b.space.names.find? fun x => !space.contains x with
  | some x => .error (.unknownVariable x)
  | none => .ok { b with space }

def intersect (a b : Conjunction) : Except SetError Conjunction := do
  let c ← a.rehome (a.space.align b.space)
  (if b.isContradictory then c.markEmpty else c).addConstraints b.constraints

def eliminateFrom (systems : List System) (x : String) : Except SetError (List System) :=
  systems.foldlM
    (fun found s => do
      let found := found ++ (← s.eliminate x)
      if System.maxSplits < found.length then .error (.splitLimit System.maxSplits) else .ok found)
    []

def projectOut (b : Conjunction) (names : List String) : Except SetError (List Conjunction) :=
  if b.isContradictory then .ok []
  else do
    let space := b.space.without names
    let systems ←
      ((Names.ofList names).filter b.space.contains).foldlM eliminateFrom [b.constraints]
    .ok (systems.map fun s => ⟨space, s, false⟩)

def containsAll (values : Assignment) : List Constraint → Except SetError Bool
  | [] => .ok true
  | c :: cs => do
    match ← c.holds? values with
    | some true => containsAll values cs
    | some false => .ok false
    | none =>
      let missing := c.form.vars.find? fun x => (values.get? x).isNone
      .error (.unknownVariable (missing.getD ""))

def contains (b : Conjunction) (values : Assignment) : Except SetError Bool :=
  if b.isContradictory then .ok false else containsAll values b.constraints

def sample (b : Conjunction) : Except SetError (Option Point) :=
  if b.isContradictory then .ok none else Sample.find b.space b.constraints

def isEmpty (b : Conjunction) : Except SetError Bool := do .ok (← b.sample).isNone

def nonemptyWith (b : Conjunction) : List Constraint → Except SetError (List Conjunction)
  | [] => .ok []
  | c :: cs => do
    let piece ← b.addConstraint c
    let empty ← piece.isEmpty
    let rest ← nonemptyWith b cs
    .ok (if empty then rest else piece :: rest)

/-- The pieces of `acc` that violate one of the constraints and satisfy those before it. -/
def violations (acc : Conjunction) : List Constraint → Except SetError (List Conjunction)
  | [] => .ok []
  | c :: cs =>
    if acc.isContradictory then .ok []
    else do
      let pieces ← acc.nonemptyWith (← c.negate)
      let acc ← acc.addConstraint c
      .ok (pieces ++ (← violations acc cs))

def subtract (a b : Conjunction) : Except SetError (List Conjunction) := do
  let acc ← a.rehome (a.space.align b.space)
  if b.isContradictory then .ok [acc] else acc.violations b.constraints

def excludesAll (b : Conjunction) : List Constraint → Except SetError Bool
  | [] => .ok true
  | c :: cs => do
    if ← (← b.addConstraint c).isEmpty then excludesAll b cs else .ok false

/-- Drops each constraint that the kept and the remaining ones imply. -/
def irredundant (space : Space) (kept : List Constraint) :
    List Constraint → Except SetError (List Constraint)
  | [] => .ok kept
  | c :: cs => do
    let others : Conjunction := ⟨space, kept ++ cs, false⟩
    if ← others.excludesAll (← c.negate) then irredundant space kept cs
    else irredundant space (kept ++ [c]) cs

def removeRedundancies (b : Conjunction) : Except SetError Conjunction := do
  if ← b.isEmpty then .ok (empty b.space)
  else .ok ⟨b.space, ← irredundant b.space [] b.constraints, false⟩

end Conjunction

end LoopAudit
