import LoopAudit.Expr
import LoopAudit.Assignment

/-! The value of an expression under a finite assignment, within the word range. Division rounds
down and the remainder takes the sign of the divisor. -/

namespace LoopAudit

inductive EvalError where
  | unknownVariable (name : String)
  | notEvaluable (expr : String)
  | divisionByZero
  | overflow
deriving DecidableEq, Repr

namespace EvalError

def message : EvalError → String
  | unknownVariable name => "no value for variable '" ++ name ++ "'"
  | notEvaluable expr => "'" ++ expr ++ "' has no integer value"
  | divisionByZero => "division by zero"
  | overflow => "integer overflow"

def code : EvalError → String
  | unknownVariable _ => "polyguard::eval::unknown_variable"
  | notEvaluable _ => "polyguard::eval::not_evaluable"
  | divisionByZero => "polyguard::eval::division_by_zero"
  | overflow => "polyguard::eval::overflow"

end EvalError

namespace Expr

def fitting (x : Int) : Except EvalError Int :=
  if Word.Fits x then .ok x else .error .overflow

theorem fitting_eq_ok {v w : Int} : fitting v = .ok w ↔ Word.Fits v ∧ v = w := by
  unfold fitting
  split <;> simp_all

/-- The quotient rounded down, from the one rounded toward zero: that is one more where the division
leaves something and the signs differ. -/
def floorQuotient (a b : Int) : Except EvalError Int :=
  if b = 0 then .error .divisionByZero
  else do
    let q ← fitting (a.tdiv b)
    if a.tmod b ≠ 0 ∧ ¬ (a < 0 ↔ b < 0) then fitting (q - 1) else .ok q

def floorRemainder (a b : Int) : Except EvalError Int := do
  let q ← floorQuotient a b
  let multiple ← fitting (q * b)
  fitting (a - multiple)

mutual

def evaluate (values : Assignment) : Expr → Except EvalError Int
  | int n => .ok n
  | var x =>
    match values.get? x with
    | some v => .ok v
    | none => .error (.unknownVariable x)
  | sum xs => evaluateSum values 0 xs
  | product xs => evaluateProduct values 1 xs
  | neg x => do fitting (-(← evaluate values x))
  | floorDiv a b => do
    let x ← evaluate values a
    let y ← evaluate values b
    floorQuotient x y
  | remainder a b => do
    let x ← evaluate values a
    let y ← evaluate values b
    floorRemainder x y
  | subscript x index => .error (.notEvaluable (subscript x index).text)
  | call f args => .error (.notEvaluable (call f args).text)

def evaluateSum (values : Assignment) (acc : Int) : List Expr → Except EvalError Int
  | [] => .ok acc
  | x :: xs => do
    let v ← evaluate values x
    evaluateSum values (← fitting (acc + v)) xs

def evaluateProduct (values : Assignment) (acc : Int) : List Expr → Except EvalError Int
  | [] => .ok acc
  | x :: xs => do
    let v ← evaluate values x
    evaluateProduct values (← fitting (acc * v)) xs

end

end Expr

end LoopAudit
