import LoopAudit.Expr
import Mathlib.Data.List.Basic

/-! The parts of an expression, and induction over them. -/

namespace LoopAudit.Expr

def parts : Expr → List Expr
  | int _ | var _ => []
  | sum xs | product xs => xs
  | neg x => [x]
  | floorDiv a b | remainder a b => [a, b]
  | subscript _ index => index
  | call _ args => args

inductive Occurs (e : Expr) : Expr → Prop
  | here : Occurs e e
  | inside {x y : Expr} : x ∈ y.parts → Occurs e x → Occurs e y

variable {x e : Expr}

theorem sizeOf_parts (h : x ∈ e.parts) : sizeOf x < sizeOf e := by
  cases e with
  | int _ | var _ => cases h
  | sum xs | product xs | subscript _ xs | call _ xs =>
    have := List.sizeOf_lt_of_mem (show x ∈ xs from h)
    simp
    omega
  | neg _ | floorDiv _ _ | remainder _ _ =>
    simp [parts] at h
    grind

theorem induction_on_parts {motive : Expr → Prop}
    (hstep : ∀ e, (∀ x ∈ e.parts, motive x) → motive e) (e : Expr) : motive e :=
  hstep e fun x _ => induction_on_parts hstep x
termination_by sizeOf e
decreasing_by exact sizeOf_parts ‹_›

end LoopAudit.Expr
