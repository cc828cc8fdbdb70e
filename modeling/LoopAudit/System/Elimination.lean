import LoopAudit.System

/-! Elimination of a variable from a system. An equality on the variable serves as a substitution;
otherwise lower and upper bounds are paired. The real shadow contains the integer projection, and
dark shadow and splinters together are exactly the integer projection. -/

namespace LoopAudit.System

def maxSplits : Nat := 256

def pivot? (x : String) : System → Option (Affine × System)
  | [] => none
  | c :: s =>
    let candidate := c.isEquality && c.form.mentions x
    match pivot? x s with
    | none => if candidate then some (c.form, s) else none
    | some (e, others) =>
      if candidate && (c.form.coeff x).natAbs ≤ (e.coeff x).natAbs then some (c.form, s)
      else some (e, c :: others)

/-- With `e = 0` and `a` the coefficient of `x` in `e`: the constraint scaled by `|a|`, less the
multiple of `e` that cancels `x`. A modulus is scaled along. -/
def cancel (e : Affine) (x : String) (c : Constraint) : Except SetError Constraint := do
  let a := e.coeff x
  let b := c.form.coeff x
  if b = 0 then .ok c
  else
    let left ← c.form.scale a.natAbs
    let right ← e.scale (b * a.sign)
    let combined ← left.sub right
    match c.relation with
    | .eq => .ok (.eq combined)
    | .ge => .ok (.ge combined)
    | .mod m => Constraint.divisible combined (← exact (m * a.natAbs))

/-- Substitutes `x` away through `e = 0`. A coefficient beyond one leaves the integrality of `x`
behind as a congruence, so that the result is the exact projection. -/
def eliminateByEquality (e : Affine) (others : System) (x : String) :
    Except SetError (Option System) := do
  let a := e.coeff x
  if 1 < a.natAbs then
    let c ← Constraint.divisible (← e.substituteValue x 0) a
    match ← insert [] c with
    | none => .ok none
    | some s => insertEach (cancel e x) s others
  else insertEach (cancel e x) [] others

def free (x : String) (s : System) : System := s.filter fun c => c.form.coeff x = 0

def lowerBounds (x : String) (s : System) : List Affine :=
  (s.filter fun c => c.relation == .ge && decide (0 < c.form.coeff x)).map (·.form)

def upperBounds (x : String) (s : System) : List Affine :=
  (s.filter fun c => c.relation == .ge && decide (c.form.coeff x < 0)).map (·.form)

def realPair (x : String) (bounds : Affine × Affine) : Except SetError Constraint := do
  let (l, u) := bounds
  let left ← l.scale (-(u.coeff x))
  let right ← u.scale (l.coeff x)
  .ok (.ge (← left.add right))

/-- For coefficients `a` and `-b`, the bound of `realPair` with the slack `(a - 1)(b - 1)`, under
which an integer fits between. -/
def darkPair (x : String) (bounds : Affine × Affine) : Except SetError Constraint := do
  let c ← realPair x bounds
  let slack ← exact ((bounds.1.coeff x - 1) * (-(bounds.2.coeff x) - 1))
  .ok (.ge (← c.form.addConstant (-slack)))

def pairs (lower upper : List Affine) : List (Affine × Affine) :=
  lower.flatMap fun l => upper.map fun u => (l, u)

def shadow (s : System) (x : String) : Except SetError (Option System) :=
  match s.pivot? x with
  | some (e, others) => eliminateByEquality e others x
  | none => do
    match ← ofList? (s.free x) with
    | none => .ok none
    | some rest => insertEach (realPair x) rest (pairs (s.lowerBounds x) (s.upperBounds x))

def slice (s : System) (x : String) (e : Affine) : Except SetError (Option System) := do
  match ← ofList? (s ++ [.eq e]) with
  | none => .ok none
  | some t =>
    match t.pivot? x with
    | some (e, others) => eliminateByEquality e others x
    | none => .ok none

def splinters (s : System) (x : String) (l : Affine) :
    Nat → Int → List System → Except SetError (List System)
  | 0, _, found => .ok found
  | count + 1, i, found => do
    let more ← s.slice x (← l.addConstant (-i))
    let found := found ++ more.toList
    if maxSplits < found.length then .error (.splitLimit maxSplits)
    else splinters s x l count (i + 1) found

def sliceCount (m : Int) (l : Affine) (x : String) : Except SetError Nat := do
  let a := l.coeff x
  let product ← exact (m * a)
  let margin ← trapping (a + m)
  let span ← exact (product - margin)
  .ok (span / m + 1).toNat

/-- Exact elimination when only inequalities mention `x`: the real shadow where every pair of
bounds has a unit coefficient on one side, else the dark shadow and the splinters. -/
def eliminateBounds (s : System) (x : String) : Except SetError (List System) := do
  match ← ofList? (s.free x) with
  | none => .ok []
  | some rest =>
    let lower := s.lowerBounds x
    let upper := s.upperBounds x
    if lower.all fun l => upper.all fun u => l.coeff x == 1 || u.coeff x == -1 then
      .ok (← insertEach (realPair x) rest (pairs lower upper)).toList
    else
      let dark ← insertEach (darkPair x) rest (pairs lower upper)
      let m := upper.foldl (fun m u => max m (-(u.coeff x))) 1
      lower.foldlM
        (fun found l => do splinters s x l (← sliceCount m l x) 0 found) dark.toList

def joinPeriod (x : String) (p : Int) (c : Constraint) : Except SetError Int :=
  match c.relation with
  | .mod m => if c.form.mentions x then exact (p / p.gcd m * m) else .ok p
  | _ => .ok p

def period (x : String) (s : System) : Except SetError Int := s.foldlM (joinPeriod x) 1

def eliminateResidue (s : System) (x : String) (p r : Int) : Except SetError (List System) := do
  let replacement ← (Affine.term x p).addConstant r
  let shifted ← s.mapM fun c => c.substitute x replacement
  match ← ofList? shifted with
  | none => .ok []
  | some t => eliminateBounds t x

def eliminate (s : System) (x : String) : Except SetError (List System) :=
  if !s.mentions x then .ok [s]
  else
    match s.pivot? x with
    | some (e, others) => do .ok (← eliminateByEquality e others x).toList
    | none => do
      let p ← s.period x
      if p = 1 then eliminateBounds s x
      else if (maxSplits : Int) < p then .error (.splitLimit maxSplits)
      else
        (List.range p.toNat).foldlM
          (fun found (r : Nat) => do
            let found := found ++ (← eliminateResidue s x p r)
            if maxSplits < found.length then .error (.splitLimit maxSplits) else .ok found)
          []

end LoopAudit.System
