import LoopAudit.Affine

/-! Constraints on an affine form: it is zero, it is nonnegative, or it is a multiple of a modulus.
A constraint has a normal form with the same integer solutions, and a negation as a list of
alternatives that exclude each other. -/

namespace LoopAudit

inductive Relation where
  | eq
  | ge
  | mod (modulus : Int)
deriving DecidableEq, Repr

structure Constraint where
  relation : Relation
  form : Affine
deriving DecidableEq, Repr

/-- The largest modulus whose complement is spelled out residue by residue. -/
def maxModulus : Int := 256

namespace Relation

def Holds : Relation → Int → Prop
  | eq, v => v = 0
  | ge, v => 0 ≤ v
  | mod m, v => m ∣ v

def test : Relation → Int → Bool
  | eq, v => v == 0
  | ge, v => decide (0 ≤ v)
  | mod m, v => v % m == 0

theorem test_iff (r : Relation) (v : Int) : r.test v = true ↔ r.Holds v := by
  cases r with
  | eq => exact beq_iff_eq
  | ge => exact decide_eq_true_iff
  | mod m => exact beq_iff_eq.trans Int.dvd_iff_emod_eq_zero.symm

end Relation

namespace Constraint

def Holds (c : Constraint) (ρ : String → Int) : Prop := c.relation.Holds (c.form.eval ρ)

def eq (e : Affine) : Constraint := ⟨.eq, e⟩

def ge (e : Affine) : Constraint := ⟨.ge, e⟩

def divisible (e : Affine) (modulus : Int) : Except SetError Constraint := do
  let m ← exact modulus.natAbs
  .ok (if m = 0 then eq e else ⟨.mod m, e⟩)

def le (e f : Affine) : Except SetError Constraint := do .ok (ge (← f.sub e))

def lt (e f : Affine) : Except SetError Constraint := do .ok (ge (← (← f.sub e).addConstant (-1)))

def equal (e f : Affine) : Except SetError Constraint := do .ok (eq (← e.sub f))

def isEquality (c : Constraint) : Bool := c.relation == .eq

inductive Normal where
  | trivial
  | infeasible
  | proper (c : Constraint)
deriving DecidableEq, Repr

/-- A congruence with coefficients and constant in `[0, m)`, divided by what they share with `m`. -/
def normalizeMod (e : Affine) (m : Int) : Except SetError Normal := do
  let reduced : Affine :=
    ⟨(e.terms.map fun t => (t.1, t.2 % m)).filter (fun t => t.2 ≠ 0), e.constant % m⟩
  let shared ← commonDivisor (← reduced.content) m
  .ok
    (if reduced.constant % shared ≠ 0 then .infeasible
    else if shared = m then .trivial
    else .proper ⟨.mod (m / shared), reduced.map (· / shared)⟩)

def normalizeEq (e : Affine) : Except SetError Normal := do
  let g ← e.content
  let divided := e.map (· / g)
  if e.constant % g ≠ 0 then .ok .infeasible
  else if divided.isReversed then .ok (.proper (eq (← divided.opposite)))
  else .ok (.proper (eq divided))

def normalizeGe (e : Affine) : Except SetError Normal := do
  let g ← e.content
  .ok (.proper (ge (e.map (· / g))))

def normalize (c : Constraint) : Except SetError Normal :=
  if c.form.isConstant then
    .ok (if c.relation.test c.form.constant then .trivial else .infeasible)
  else
    match c.relation with
    | .eq => normalizeEq c.form
    | .ge => normalizeGe c.form
    | .mod m => normalizeMod c.form m

def nonzeroResidues (m : Int) : List Int :=
  (List.range (m.toNat - 1)).map fun (k : Nat) => (k : Int) + 1

/-- Alternatives that together say the opposite: two half-spaces for an equality, one for an
inequality, and one congruence per nonzero residue. -/
def negate (c : Constraint) : Except SetError (List Constraint) := do
  let below ← (← c.form.neg).addConstant (-1)
  match c.relation with
  | .ge => .ok [ge below]
  | .eq => .ok [ge (← c.form.addConstant (-1)), ge below]
  | .mod m =>
    if maxModulus < m then .error (.splitLimit maxModulus.toNat)
    else (nonzeroResidues m).mapM fun r => do .ok ⟨.mod m, ← c.form.addConstant (-r)⟩

def substitute (c : Constraint) (x : String) (f : Affine) : Except SetError Constraint := do
  .ok { c with form := ← c.form.substitute x f }

def substituteValue (c : Constraint) (x : String) (v : Int) : Except SetError Constraint :=
  c.substitute x (.const v)

def parallel (c d : Constraint) : Bool := c.relation == d.relation && c.form.terms == d.form.terms

def holds? (c : Constraint) (values : Assignment) : Except SetError (Option Bool) := do
  .ok ((← c.form.evaluate values).map c.relation.test)

/-- The residue that the terms of a congruence leave; the least word, which has no opposite,
counts as zero. -/
def residue (e : Affine) (m : Int) : Int := (Word.checked (-e.constant)).getD 0 % m

def modText (e : Affine) (m : Int) : String :=
  let left := { e with constant := 0 }
  let shown := match left.terms with
    | [(x, 1)] => x
    | _ => "(" ++ left.text ++ ")"
  shown ++ " mod " ++ Decimal.text m ++ " = " ++ Decimal.text (residue e m)

def comparisonText (e : Affine) (op : String) : String :=
  let left : Affine := ⟨e.terms.filter (fun t => 0 < t.2), max e.constant 0⟩
  let right : Affine :=
    ⟨(e.terms.filter (fun t => ¬ 0 < t.2)).map (fun t => (t.1, -t.2)), max (-e.constant) 0⟩
  left.text ++ " " ++ op ++ " " ++ right.text

def text (c : Constraint) : String :=
  match c.relation with
  | .mod m => modText c.form m
  | .eq => comparisonText c.form "="
  | .ge => comparisonText c.form ">="

end Constraint

end LoopAudit
