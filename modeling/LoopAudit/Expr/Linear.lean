import LoopAudit.Expr
import LoopAudit.Affine

/-! The affine form of an expression without division. -/

namespace LoopAudit.Expr

def affineProduct? (e f : Affine) : Except SetError (Option Affine) :=
  if e.isConstant then some <$> f.scale e.constant
  else if f.isConstant then some <$> e.scale f.constant
  else .ok none

mutual

def linearize : Expr → Option Affine
  | int n => some (.const n)
  | var x => some (.var x)
  | sum xs => linearizeSum .zero xs
  | product xs => linearizeProduct (.const 1) xs
  | neg x => do (← linearize x).neg.toOption
  | floorDiv _ _ => none
  | remainder _ _ => none
  | subscript _ _ => none
  | call _ _ => none

def linearizeSum (acc : Affine) : List Expr → Option Affine
  | [] => some acc
  | x :: xs => do
    let e ← linearize x
    linearizeSum (← (acc.add e).toOption) xs

def linearizeProduct (acc : Affine) : List Expr → Option Affine
  | [] => some acc
  | x :: xs => do
    let e ← linearize x
    linearizeProduct (← (affineProduct? acc e).toOption.join) xs

end

end LoopAudit.Expr
