import LoopAudit.SetError
import LoopAudit.Assignment
import LoopAudit.Text.Decimal

/-! Affine forms over named variables. Terms stand in name order and no zero coefficient is stored,
so that equal forms are the same value. Arithmetic is exact within the word range. -/

namespace LoopAudit

/-- The form `Σ c·x + k`. -/
structure Affine where
  terms : List (String × Int)
  constant : Int
deriving DecidableEq, Repr

def setTerm (x : String) (c : Int) : List (String × Int) → List (String × Int)
  | [] => if c = 0 then [] else [(x, c)]
  | (y, a) :: ts =>
    if x = y then
      if c = 0 then ts else (x, c) :: ts
    else if x < y then
      if c = 0 then (y, a) :: ts else (x, c) :: (y, a) :: ts
    else (y, a) :: setTerm x c ts

namespace Affine

def Canonical (e : Affine) : Prop :=
  (e.terms.map Prod.fst).Pairwise (· < ·) ∧ ∀ t ∈ e.terms, t.2 ≠ 0

instance (e : Affine) : Decidable e.Canonical := inferInstanceAs (Decidable (_ ∧ _))

def eval (e : Affine) (ρ : String → Int) : Int :=
  e.terms.foldr (fun t s => t.2 * ρ t.1 + s) e.constant

def const (k : Int) : Affine := ⟨[], k⟩

def zero : Affine := const 0

def ofTerms (terms : List (String × Int)) (k : Int) : Affine :=
  ⟨terms.foldl (fun ts t => setTerm t.1 t.2 ts) [], k⟩

def term (x : String) (c : Int) : Affine := ⟨if c = 0 then [] else [(x, c)], 0⟩

def var (x : String) : Affine := term x 1

def coeff (e : Affine) (x : String) : Int := (e.terms.lookup x).getD 0

def vars (e : Affine) : List String := e.terms.map Prod.fst

def isConstant (e : Affine) : Bool := e.terms.isEmpty

def mentions (e : Affine) (x : String) : Bool := e.terms.any (fun t => t.1 == x)

/-- Adds a term in place: the form as it stands afterwards, and the fault that stopped the change,
if any. -/
def increaseTerm (e : Affine) (x : String) (c : Int) : Affine × Option SetError :=
  if c = 0 then (e, none)
  else
    match exact (e.coeff x + c) with
    | .error fault => (e, some fault)
    | .ok total => ({ e with terms := setTerm x total e.terms }, none)

def increaseConstant (e : Affine) (k : Int) : Affine × Option SetError :=
  match exact (e.constant + k) with
  | .error fault => (e, some fault)
  | .ok total => ({ e with constant := total }, none)

def addTerm (e : Affine) (x : String) (c : Int) : Except SetError Affine :=
  outcome (e.increaseTerm x c)

def addConstant (e : Affine) (k : Int) : Except SetError Affine := outcome (e.increaseConstant k)

theorem addTerm_eq (e : Affine) (x : String) (c : Int) : e.addTerm x c =
    if c = 0 then .ok e
    else (do
      let total ← exact (e.coeff x + c)
      .ok { e with terms := setTerm x total e.terms }) := by
  unfold addTerm increaseTerm
  split
  · rfl
  · cases exact (e.coeff x + c) <;> rfl

theorem addConstant_eq (e : Affine) (k : Int) : e.addConstant k = (do
    let total ← exact (e.constant + k)
    .ok { e with constant := total }) := by
  unfold addConstant increaseConstant
  cases exact (e.constant + k) <;> rfl

def add (e f : Affine) : Except SetError Affine := do
  let sum ← f.terms.foldlM (fun acc t => acc.addTerm t.1 t.2) e
  sum.addConstant f.constant

def scale (e : Affine) (k : Int) : Except SetError Affine :=
  if k = 0 then .ok zero
  else do
    let terms ← e.terms.mapM fun t => do .ok (t.1, ← exact (t.2 * k))
    .ok ⟨terms, ← exact (e.constant * k)⟩

def neg (e : Affine) : Except SetError Affine := e.scale (-1)

def sub (e f : Affine) : Except SetError Affine := do e.add (← f.neg)

def erase (e : Affine) (x : String) : Affine := { e with terms := setTerm x 0 e.terms }

def substitute (e : Affine) (x : String) (f : Affine) : Except SetError Affine :=
  let c := e.coeff x
  if c = 0 then .ok e else do (e.erase x).add (← f.scale c)

def substituteValue (e : Affine) (x : String) (v : Int) : Except SetError Affine :=
  e.substitute x (const v)

def rename (e : Affine) (x y : String) : Except SetError Affine := e.substitute x (var y)

def evaluateFrom (values : Assignment) :
    Int → List (String × Int) → Except SetError (Option Int)
  | acc, [] => .ok (some acc)
  | acc, (x, c) :: ts =>
    match values.get? x with
    | none => .ok none
    | some v => do
      let product ← exact (c * v)
      let total ← exact (acc + product)
      evaluateFrom values total ts

def evaluate (e : Affine) (values : Assignment) : Except SetError (Option Int) :=
  evaluateFrom values e.constant e.terms

def content (e : Affine) : Except SetError Int :=
  e.terms.foldlM (fun g t => commonDivisor g t.2) 0

def map (f : Int → Int) (e : Affine) : Affine :=
  ⟨e.terms.map fun t => (t.1, f t.2), f e.constant⟩

def opposite (e : Affine) : Except SetError Affine := do
  let terms ← e.terms.mapM fun t => do .ok (t.1, ← trapping (-t.2))
  .ok ⟨terms, ← trapping (-e.constant)⟩

def isReversed (e : Affine) : Bool := e.terms.head?.any fun t => t.2 < 0

def termText (x : String) (c : Int) : String :=
  if c.natAbs = 1 then x else Decimal.text c.natAbs ++ x

def tailText : List (String × Int) → String
  | [] => ""
  | (x, c) :: ts => (if c < 0 then " - " else " + ") ++ termText x c ++ tailText ts

def constantText (k : Int) : String :=
  if 0 < k then " + " ++ Decimal.text k
  else if k < 0 then " - " ++ Decimal.text k.natAbs
  else ""

def text (e : Affine) : String :=
  match e.terms with
  | [] => Decimal.text e.constant
  | (x, c) :: ts =>
    (if c < 0 then "-" else "") ++ termText x c ++ tailText ts ++ constantText e.constant

end Affine

end LoopAudit
