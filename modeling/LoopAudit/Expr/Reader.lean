import LoopAudit.Expr
import LoopAudit.Text.Reading

/-! The text of expressions. Multiplication, `//` and `%` bind alike and to the left; a minus sign
in front binds tighter, and one between terms negates the term after it. -/

namespace LoopAudit.Expr.Reader

open Reading

def gather (wrap : List Expr → Expr) : List Expr → Expr
  | [e] => e
  | es => wrap es

def bracketed (inner : Reader Expr) (close : TokenKind) (what : String) :
    Reader (List Expr × Span) := fun ts => do
  let (es, ts) ← if nextIs close ts then .ok ([], ts) else collect .comma inner ts
  let (span, ts) ← expect close what ts
  .ok ((es, span), ts)

def named (inner : Reader Expr) (name : String) : Reader Expr := fun ts =>
  match eat? .lbracket ts, eat? .lparen ts with
  | some (_, ts), _ => do
    let ((index, span), ts) ← bracketed inner .rbracket "']'" ts
    if index.isEmpty then .error ⟨"empty subscript", span⟩ else .ok (.subscript name index, ts)
  | none, some (_, ts) => do
    let ((args, _), ts) ← bracketed inner .rparen "')'" ts
    .ok (.call name args, ts)
  | none, none => .ok (.var name, ts)

def opposite : Expr → Expr
  | .int n => if n = Word.least then .neg (.int n) else .int (-n)
  | e => .neg e

def unary (inner : Reader Expr) : Reader Expr
  | ⟨.minus, _⟩ :: ts => do
    let (e, ts) ← unary inner ts
    .ok (opposite e, ts)
  | ⟨.int n, _⟩ :: ts => .ok (.int n, ts)
  | ⟨.ident x, _⟩ :: ts => named inner x ts
  | ⟨.lparen, _⟩ :: ts => do
    let (e, ts) ← inner ts
    let (_, ts) ← expect .rparen "')'" ts
    .ok (e, ts)
  | ts => .error ⟨"expected an expression", spanOf ts⟩

def productStep (inner : Reader Expr) (factors : List Expr) :
    List Token → Except SyntaxError (Option (List Expr × List Token))
  | ⟨.star, _⟩ :: ts => do
    let (e, ts) ← unary inner ts
    .ok (some (factors ++ [e], ts))
  | ⟨.slashSlash, _⟩ :: ts => do
    let (e, ts) ← unary inner ts
    .ok (some ([.floorDiv (gather .product factors) e], ts))
  | ⟨.percent, _⟩ :: ts => do
    let (e, ts) ← unary inner ts
    .ok (some ([.remainder (gather .product factors) e], ts))
  | ⟨.slash, span⟩ :: _ =>
    .error ⟨"true division is not an integer operation; use '//'", span⟩
  | _ => .ok none

def product (inner : Reader Expr) : Reader Expr := fun ts => do
  let (first, ts) ← unary inner ts
  let (factors, ts) ← loop (productStep inner) [first] ts
  .ok (gather .product factors, ts)

def sumStep (inner : Reader Expr) (terms : List Expr) :
    List Token → Except SyntaxError (Option (List Expr × List Token))
  | ⟨.plus, _⟩ :: ts => do
    let (e, ts) ← product inner ts
    .ok (some (terms ++ [e], ts))
  | ⟨.minus, _⟩ :: ts => do
    let (e, ts) ← product inner ts
    .ok (some (terms ++ [.neg e], ts))
  | _ => .ok none

def sum (inner : Reader Expr) : Reader Expr := fun ts => do
  let (first, ts) ← product inner ts
  let (terms, ts) ← loop (sumStep inner) [first] ts
  .ok (gather .sum terms, ts)

def exprWithin : Nat → Reader Expr
  | 0, ts => .error ⟨"expected an expression", spanOf ts⟩
  | depth + 1, ts => sum (exprWithin depth) ts

/-- An expression. Every bracket takes a token, so the tokens bound the nesting. -/
def expr : Reader Expr := fun ts => exprWithin (ts.length + 1) ts

end LoopAudit.Expr.Reader

namespace LoopAudit.Expr

def parse (src : String) : Except SyntaxError Expr := do
  let (e, ts) ← Reader.expr (← Token.scan src)
  Reading.expectEnd ts
  .ok e

end LoopAudit.Expr
