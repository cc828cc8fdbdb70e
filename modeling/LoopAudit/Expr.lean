import LoopAudit.Names
import LoopAudit.Text.Decimal

/-! Index and value expressions of instructions, and their text. -/

namespace LoopAudit

inductive Expr where
  | int (n : Int)
  | var (name : String)
  | sum (terms : List Expr)
  | product (factors : List Expr)
  | neg (e : Expr)
  /-- Division rounded down, `a // b`. -/
  | floorDiv (a b : Expr)
  /-- Remainder with the sign of the divisor, `a % b`. -/
  | remainder (a b : Expr)
  | subscript (aggregate : String) (index : List Expr)
  | call (function : String) (args : List Expr)
deriving Repr, Inhabited

namespace Expr

mutual

def same : Expr → Expr → Bool
  | int m, int n => m == n
  | var x, var y => x == y
  | sum xs, sum ys => sameAll xs ys
  | product xs, product ys => sameAll xs ys
  | neg x, neg y => same x y
  | floorDiv a b, floorDiv c d => same a c && same b d
  | remainder a b, remainder c d => same a c && same b d
  | subscript x xs, subscript y ys => x == y && sameAll xs ys
  | call x xs, call y ys => x == y && sameAll xs ys
  | _, _ => false

def sameAll : List Expr → List Expr → Bool
  | [], [] => true
  | x :: xs, y :: ys => same x y && sameAll xs ys
  | _, _ => false

end

instance : BEq Expr := ⟨same⟩

def assigneeName? : Expr → Option String
  | var x => some x
  | subscript x _ => some x
  | _ => none

def assigneeIndex : Expr → List Expr
  | subscript _ index => index
  | _ => []

mutual

/-- The variables read, subscripted aggregates included and function names not, as they appear. -/
def reads : Expr → List String
  | int _ => []
  | var x => [x]
  | sum xs => readsAll xs
  | product xs => readsAll xs
  | neg x => reads x
  | floorDiv a b => reads a ++ reads b
  | remainder a b => reads a ++ reads b
  | subscript x index => x :: readsAll index
  | call _ args => readsAll args

def readsAll : List Expr → List String
  | [] => []
  | x :: xs => reads x ++ readsAll xs

end

def dependencies (e : Expr) : List String := Names.ofList e.reads

mutual

def subscripts : Expr → List (String × List Expr)
  | int _ => []
  | var _ => []
  | sum xs => subscriptsAll xs
  | product xs => subscriptsAll xs
  | neg x => subscripts x
  | floorDiv a b => subscripts a ++ subscripts b
  | remainder a b => subscripts a ++ subscripts b
  | subscript x index => (x, index) :: subscriptsAll index
  | call _ args => subscriptsAll args

def subscriptsAll : List Expr → List (String × List Expr)
  | [] => []
  | x :: xs => subscripts x ++ subscriptsAll xs

end

def precedence : Expr → Nat
  | sum _ => 1
  | product _ => 2
  | floorDiv _ _ => 2
  | remainder _ _ => 2
  | neg _ => 3
  | int n => if n < 0 then 3 else 4
  | _ => 4

def enclosed (least : Nat) (e : Expr) (bare : String) : String :=
  if e.precedence < least then "(" ++ bare ++ ")" else bare

mutual

def text : Expr → String
  | int n => Decimal.text n
  | var x => x
  | sum [] => ""
  | sum (x :: xs) => enclosed 1 x (text x) ++ sumTail xs
  | product [] => ""
  | product (x :: xs) => enclosed 2 x (text x) ++ productTail xs
  | neg x => "-" ++ enclosed 3 x (text x)
  | floorDiv a b => enclosed 2 a (text a) ++ " // " ++ enclosed 3 b (text b)
  | remainder a b => enclosed 2 a (text a) ++ " % " ++ enclosed 3 b (text b)
  | subscript x index => x ++ "[" ++ listText index ++ "]"
  | call f args => f ++ "(" ++ listText args ++ ")"

def sumTail : List Expr → String
  | [] => ""
  | neg x :: xs => " - " ++ enclosed 2 x (text x) ++ sumTail xs
  | x :: xs => " + " ++ enclosed 2 x (text x) ++ sumTail xs

def productTail : List Expr → String
  | [] => ""
  | x :: xs => " * " ++ enclosed 3 x (text x) ++ productTail xs

def listText : List Expr → String
  | [] => ""
  | [x] => text x
  | x :: xs => text x ++ ", " ++ listText xs

end

end Expr

end LoopAudit
