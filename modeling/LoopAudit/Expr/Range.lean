import LoopAudit.Expr.Linear
import LoopAudit.IntegerSet

/-! The index tuples that subscripts reach over a domain. Each floor division or remainder by a
constant gets a helper variable for its quotient, bounded from both sides; helpers and loop
variables are then eliminated as long as that keeps every piece whole. -/

namespace LoopAudit.Expr

structure Lowering where
  taken : List String
  helpers : List String
  constraints : List Constraint
deriving DecidableEq, Repr

namespace Lowering

def start (space : Space) : Lowering := ⟨space.names, [], []⟩

def variant (base : String) : Nat → String
  | 0 => base
  | n + 1 => base ++ "_" ++ Decimal.text (n + 1)

/-- The first variant of a name that is not in use; there is one among `taken.length + 1`. -/
def freshName (taken : List String) (base : String) : String :=
  (((List.range (taken.length + 1)).map (variant base)).find? fun x => !taken.contains x).getD base

def fresh (state : Lowering) (base : String) : String × Lowering :=
  let x := freshName state.taken base
  (x, { state with taken := state.taken ++ [x] })

def overPositive (num : Affine) (d : Int) : Except SetError (Affine × Int) :=
  if 0 < d then .ok (num, d) else do .ok (← num.neg, ← exact (-d))

/-- A helper `q` with `m·q ≤ n ≤ m·q + m - 1`, where `n / m` is `num / d` with a positive
divisor. -/
def quotient (state : Lowering) (num : Affine) (d : Int) :
    Except SetError (Affine × Lowering) := do
  let (q, state) := state.fresh "_q"
  let (n, m) ← overPositive num d
  let multiple := Affine.term q m
  let below ← Constraint.le multiple n
  let top ← multiple.addConstant (m - 1)
  let above ← Constraint.le n top
  .ok (.var q, { state with
    helpers := state.helpers ++ [q], constraints := state.constraints ++ [below, above] })

def divide? (state : Lowering) (num den : Affine) : Except SetError (Option (Affine × Lowering)) :=
  if !den.isConstant || den.constant == 0 then .ok none
  else some <$> state.quotient num den.constant

end Lowering

mutual

def lower (space : Space) (state : Lowering) :
    Expr → Except SetError (Option (Affine × Lowering))
  | int n => .ok (some (.const n, state))
  | var x => .ok (if space.contains x then some (.var x, state) else none)
  | sum xs => lowerSum space state .zero xs
  | product xs => lowerProduct space state (.const 1) xs
  | neg x => do
    match ← lower space state x with
    | none => .ok none
    | some (e, state) => .ok (some (← e.neg, state))
  | floorDiv a b => do
    match ← lower space state a with
    | none => .ok none
    | some (num, state) =>
      match ← lower space state b with
      | none => .ok none
      | some (den, state) => state.divide? num den
  | remainder a b => do
    match ← lower space state a with
    | none => .ok none
    | some (num, state) =>
      match ← lower space state b with
      | none => .ok none
      | some (den, state) =>
        match ← state.divide? num den with
        | none => .ok none
        | some (q, state) => .ok (some (← num.sub (← q.scale den.constant), state))
  | subscript _ _ => .ok none
  | call _ _ => .ok none

def lowerSum (space : Space) (state : Lowering) (acc : Affine) :
    List Expr → Except SetError (Option (Affine × Lowering))
  | [] => .ok (some (acc, state))
  | x :: xs => do
    match ← lower space state x with
    | none => .ok none
    | some (e, state) => lowerSum space state (← acc.add e) xs

def lowerProduct (space : Space) (state : Lowering) (acc : Affine) :
    List Expr → Except SetError (Option (Affine × Lowering))
  | [] => .ok (some (acc, state))
  | x :: xs => do
    match ← lower space state x with
    | none => .ok none
    | some (e, state) =>
      match ← affineProduct? acc e with
      | none => .ok none
      | some next => lowerProduct space state next xs

end

def lowerIndices (space : Space) :
    Nat → Lowering → List Expr → Except SetError (Option (List (String × Constraint) × Lowering))
  | _, state, [] => .ok (some ([], state))
  | k, state, x :: xs => do
    match ← lower space state x with
    | none => .ok none
    | some (e, state) =>
      let (axis, state) := state.fresh ("_acc" ++ Decimal.text k)
      let c ← Constraint.equal (.var axis) e
      match ← lowerIndices space (k + 1) state xs with
      | none => .ok none
      | some (found, state) => .ok (some ((axis, c) :: found, state))

/-- Whether eliminating a variable keeps a conjunction whole: an equality has a unit coefficient,
or no equality or congruence mentions it and all its bounds on one side have unit coefficients. -/
def keepsWhole (x : String) (b : Conjunction) : Bool :=
  let cs := b.constraints
  let coeffs := cs.map fun c => c.form.coeff x
  if cs.any fun c => c.isEquality && (c.form.coeff x).natAbs == 1 then true
  else if cs.any fun c => c.relation != .ge && c.form.coeff x != 0 then false
  else (coeffs.all fun a => decide (a ≤ 1)) || coeffs.all fun a => decide (-1 ≤ a)

def exactToEliminate (s : IntegerSet) (x : String) : Bool := s.pieces.all (keepsWhole x)

def eliminateExact : Nat → IntegerSet → List String → Except SetError IntegerSet
  | 0, s, _ => .ok s
  | n + 1, s, pending =>
    match pending.find? (exactToEliminate s) with
    | none => .ok s
    | some x => do eliminateExact n (← s.projectOut [x]) (pending.erase x)

/-- The index tuples reached over a domain: one axis per index comes first, then the variables
that could not be eliminated. `none` when an index is not affine. -/
def accessRange (domain : IntegerSet) (index : List Expr) :
    Except SetError (Option IntegerSet) := do
  match ← lowerIndices domain.space 0 (.start domain.space) index with
  | none => .ok none
  | some (found, state) =>
    let axes := found.map Prod.fst
    let lifted ← Space.ofNames domain.space.params (axes ++ state.helpers)
    let start ← (IntegerSet.univ lifted).intersect domain
    let s ← (found.map Prod.snd ++ state.constraints).foldlM IntegerSet.addConstraint start
    let pending := s.space.dims.filter fun d => !axes.contains d
    some <$> eliminateExact pending.length s pending

end LoopAudit.Expr
