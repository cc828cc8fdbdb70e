import LoopAudit.Conjunction

/-! Integer sets: finite unions of conjunctions over one space. Operations align the spaces of
their operands first, so that a set of parameters combines directly with a domain. -/

namespace LoopAudit

structure IntegerSet where
  space : Space
  pieces : List Conjunction
deriving DecidableEq, Repr

namespace IntegerSet

def Mem (s : IntegerSet) (ρ : String → Int) : Prop := ∃ b ∈ s.pieces, b.Holds ρ

def univ (space : Space) : IntegerSet := ⟨space, [.univ space]⟩

def empty (space : Space) : IntegerSet := ⟨space, []⟩

def ofConjunction (b : Conjunction) : IntegerSet :=
  ⟨b.space, if b.isContradictory then [] else [b]⟩

def addPiece (s : IntegerSet) (b : Conjunction) : Except SetError IntegerSet :=
  if b.isContradictory then .ok s
  else do .ok { s with pieces := s.pieces ++ [← b.rehome s.space] }

def addPieces (s : IntegerSet) (bs : List Conjunction) : Except SetError IntegerSet :=
  bs.foldlM addPiece s

def ofPieces (space : Space) (bs : List Conjunction) : Except SetError IntegerSet :=
  (empty space).addPieces bs

def slab (space : Space) (dim : String) (lo hi : Affine) : Except SetError IntegerSet := do
  let above ← Constraint.le lo (.var dim)
  let below ← Constraint.lt (.var dim) hi
  .ok (ofConjunction (← Conjunction.ofConstraints space [above, below]))

def rehome (s : IntegerSet) (space : Space) : Except SetError IntegerSet := do
  .ok ⟨space, ← s.pieces.mapM (·.rehome space)⟩

/-- Adds a constraint to pieces in place, one after the other. Where one of them stops the change,
those before it have changed already. -/
def constrainEach (c : Constraint) : List Conjunction → List Conjunction × Option SetError
  | [] => ([], none)
  | b :: bs =>
    match b.constrain c with
    | (b, some fault) => (b :: bs, some fault)
    | (b, none) =>
      let rest := constrainEach c bs
      (b :: rest.1, rest.2)

def constrain (s : IntegerSet) (c : Constraint) : IntegerSet × Option SetError :=
  match constrainEach c s.pieces with
  | (bs, some fault) => ({ s with pieces := bs }, some fault)
  | (bs, none) => ({ s with pieces := bs.filter fun b => !b.isContradictory }, none)

def addConstraint (s : IntegerSet) (c : Constraint) : Except SetError IntegerSet :=
  outcome (s.constrain c)

def withDim (s : IntegerSet) (x : String) : Except SetError IntegerSet := do
  s.rehome (← s.space.withDim x)

def union (a b : IntegerSet) : Except SetError IntegerSet := do
  (← a.rehome (a.space.align b.space)).addPieces b.pieces

def intersect (a b : IntegerSet) : Except SetError IntegerSet :=
  (a.pieces.flatMap fun p => b.pieces.map fun q => (p, q)).foldlM
    (fun s pq => do s.addPiece (← pq.1.intersect pq.2)) (empty (a.space.align b.space))

def projectOut (s : IntegerSet) (names : List String) : Except SetError IntegerSet :=
  s.pieces.foldlM (fun t p => do t.addPieces (← p.projectOut names)) (empty (s.space.without names))

def projectOntoDims (s : IntegerSet) (keep : List String) : Except SetError IntegerSet :=
  s.projectOut (s.space.dims.filter fun d => !keep.contains d)

def subtractPiece (pieces : List Conjunction) (b : Conjunction) :
    Except SetError (List Conjunction) :=
  pieces.foldlM (fun found p => do .ok (found ++ (← p.subtract b))) []

def subtract (a b : IntegerSet) : Except SetError IntegerSet := do
  let space := a.space.align b.space
  let start ← a.pieces.mapM (·.rehome space)
  ofPieces space (← b.pieces.foldlM subtractPiece start)

def firstSample : List Conjunction → Except SetError (Option Point)
  | [] => .ok none
  | b :: bs => do
    match ← b.sample with
    | some p => .ok (some p)
    | none => firstSample bs

def sample (s : IntegerSet) : Except SetError (Option Point) := firstSample s.pieces

def isEmpty (s : IntegerSet) : Except SetError Bool := do .ok (← s.sample).isNone

def isSubset (a b : IntegerSet) : Except SetError Bool := do (← a.subtract b).isEmpty

def isEqual (a b : IntegerSet) : Except SetError Bool := do
  if ← a.isSubset b then b.isSubset a else .ok false

def anyContains (values : Assignment) : List Conjunction → Except SetError Bool
  | [] => .ok false
  | b :: bs => do
    if ← b.contains values then .ok true else anyContains values bs

def contains (s : IntegerSet) (values : Assignment) : Except SetError Bool :=
  anyContains values s.pieces

/-- Whether `p` lies inside one of the pieces; an equal piece counts only if it comes earlier. -/
def isCovered (p : Conjunction) : List (Conjunction × Bool) → Except SetError Bool
  | [] => .ok false
  | (q, earlier) :: rest => do
    if (← p.subtract q).isEmpty then
      let equal := (← q.subtract p).isEmpty
      if !equal || earlier then .ok true else isCovered p rest
    else isCovered p rest

def uncovered (before : List Conjunction) : List Conjunction → Except SetError (List Conjunction)
  | [] => .ok []
  | p :: after => do
    let others := before.map (·, true) ++ after.map (·, false)
    let covered ← isCovered p others
    let rest ← uncovered (before ++ [p]) after
    .ok (if covered then rest else p :: rest)

def coalesce (s : IntegerSet) : Except SetError IntegerSet := do
  let simplified ← s.pieces.mapM (·.removeRedundancies)
  let pieces := simplified.filter fun b => !b.isContradictory
  ofPieces s.space (← uncovered [] pieces)

def pieceText (b : Conjunction) : String :=
  if b.constraints.isEmpty then "true"
  else " and ".intercalate (b.constraints.map Constraint.text)

def bodyText (s : IntegerSet) : String :=
  match s.pieces with
  | [] => ": false "
  | [b] => if b.constraints.isEmpty then "" else ": " ++ pieceText b ++ " "
  | bs => ": " ++ " or ".intercalate (bs.map pieceText) ++ " "

def text (s : IntegerSet) : String :=
  let dims := if s.space.dims.isEmpty then "" else "[" ++ ", ".intercalate s.space.dims ++ "] "
  s.space.paramsText ++ "\x7b " ++ dims ++ s.bodyText ++ "\x7d"

end IntegerSet

end LoopAudit
