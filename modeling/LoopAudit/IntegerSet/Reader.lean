import LoopAudit.IntegerSet
import LoopAudit.Text.Reading

/-! The text of integer sets, such as `[n] -> { [i, j] : 0 <= i < n and j = 2i or i = n }`. -/

namespace LoopAudit.IntegerSet.Reader

open Reading

def located {α : Type} (span : Span) (result : Except SetError α) : Except SyntaxError α :=
  result.mapError fun e => ⟨e.message, span⟩

def factor (space : Space) (inner : Reader Affine) : Reader Affine
  | ⟨.int n, _⟩ :: ts => .ok (.const n, ts)
  | ⟨.ident x, span⟩ :: ts =>
    if space.contains x then .ok (.var x, ts)
    else .error ⟨"unknown identifier '" ++ x ++ "'", span⟩
  | ⟨.minus, span⟩ :: ts => do
    let (e, ts) ← factor space inner ts
    .ok (← located span e.neg, ts)
  | ⟨.lparen, _⟩ :: ts => do
    let (e, ts) ← inner ts
    let (_, ts) ← expect .rparen "')'" ts
    .ok (e, ts)
  | ts => .error ⟨"expected an affine expression", spanOf ts⟩

def startsImplicitFactor : List Token → Bool
  | ⟨.ident _, _⟩ :: _ => true
  | ⟨.lparen, _⟩ :: _ => true
  | _ => false

def nextFactor? (e : Affine) (ts : List Token) : Option (List Token) :=
  if e.isConstant && startsImplicitFactor ts then some ts
  else (eat? .star ts).map Prod.snd

def multiply (span : Span) (e f : Affine) : Except SyntaxError Affine :=
  if e.isConstant then located span (f.scale e.constant)
  else if f.isConstant then located span (e.scale f.constant)
  else .error ⟨"non-affine product", span⟩

def productStep (space : Space) (inner : Reader Affine) (e : Affine) (ts : List Token) :
    Except SyntaxError (Option (Affine × List Token)) :=
  match nextFactor? e ts with
  | none => .ok none
  | some ts => do
    let (f, rest) ← factor space inner ts
    .ok (some (← multiply (spanOf ts) e f, rest))

def product (space : Space) (inner : Reader Affine) : Reader Affine := fun ts => do
  let (e, ts) ← factor space inner ts
  loop (productStep space inner) e ts

def sumStep (space : Space) (inner : Reader Affine) (e : Affine) (ts : List Token) :
    Except SyntaxError (Option (Affine × List Token)) :=
  match eat? .plus ts, eat? .minus ts with
  | some (span, ts), _ => do
    let (f, ts) ← product space inner ts
    .ok (some (← located span (e.add f), ts))
  | none, some (span, ts) => do
    let (f, ts) ← product space inner ts
    .ok (some (← located span (e.sub f), ts))
  | none, none => .ok none

def sum (space : Space) (inner : Reader Affine) : Reader Affine := fun ts => do
  let (e, ts) ← product space inner ts
  loop (sumStep space inner) e ts

def affineWithin (space : Space) : Nat → Reader Affine
  | 0, ts => .error ⟨"expected an affine expression", spanOf ts⟩
  | depth + 1, ts => sum space (affineWithin space depth) ts

def affine (space : Space) : Reader Affine := fun ts => affineWithin space (ts.length + 1) ts

def comparison? : TokenKind → Option (Affine → Affine → Except SetError Constraint)
  | .lt => some Constraint.lt
  | .le => some Constraint.le
  | .gt => some fun e f => Constraint.lt f e
  | .ge => some fun e f => Constraint.le f e
  | .eq => some Constraint.equal
  | .eqEq => some Constraint.equal
  | _ => none

def chainStep (space : Space) : Affine × List Constraint → List Token →
    Except SyntaxError (Option ((Affine × List Constraint) × List Token)) :=
  fun (left, cs) ts =>
    match ts with
    | ⟨kind, span⟩ :: ts =>
      match comparison? kind with
      | none => .ok none
      | some compare => do
        let (right, ts) ← affine space ts
        let c ← located span (compare left right)
        .ok (some ((right, cs ++ [c]), ts))
    | [] => .ok none

def comparisons (space : Space) (first : Affine) : Reader (List Constraint) := fun ts => do
  let ((_, cs), ts) ← loop (chainStep space) (first, []) ts
  if cs.isEmpty then .error ⟨"expected a comparison operator", spanOf ts⟩ else .ok (cs, ts)

/-- The constraints of `e mod m = f`: `m` divides `e - f`, and `f` is a remainder. -/
def congruence (e f : Affine) (m : Int) : Except SetError (List Constraint) := do
  let divides ← Constraint.divisible (← e.sub f) m
  let nonnegative ← Constraint.le .zero f
  let below ← Constraint.lt f (.const m)
  .ok [divides, nonnegative, below]

def equalsSign : Reader Span := fun ts =>
  match eat? .eq ts, eat? .eqEq ts with
  | some found, _ => .ok found
  | none, some found => .ok found
  | none, none => .error ⟨"expected '=' after the modulus", spanOf ts⟩

def congruenceTail (space : Space) (e : Affine) : Reader (List Constraint)
  | ⟨.int m, span⟩ :: ts =>
    if 0 < m then do
      let (_, ts) ← equalsSign ts
      let (f, rest) ← affine space ts
      .ok (← located (spanOf ts) (congruence e f m), rest)
    else .error ⟨"expected a positive modulus", span⟩
  | ts => .error ⟨"expected a positive modulus", spanOf ts⟩

def chain (space : Space) : Reader (List Constraint) := fun ts => do
  let (e, ts) ← affine space ts
  match eat? .kwMod ts, eat? .percent ts with
  | some (_, ts), _ => congruenceTail space e ts
  | none, some (_, ts) => congruenceTail space e ts
  | none, none => comparisons space e ts

def conjunct (space : Space) : Reader (Option (List Constraint)) := fun ts =>
  match eat? .kwFalse ts, eat? .kwTrue ts with
  | some (_, ts), _ => .ok (none, ts)
  | none, some (_, ts) => .ok (some [], ts)
  | none, none => do
    let (cs, ts) ← chain space ts
    .ok (some cs, ts)

def both : Option (List Constraint) → Option (List Constraint) → Option (List Constraint)
  | some cs, some ds => some (cs ++ ds)
  | _, _ => none

def conjunction (space : Space) : Reader (Option (List Constraint)) :=
  listReader .kwAnd (conjunct space) id both

def disjunction (space : Space) : Reader (List (Option (List Constraint))) :=
  collect .kwOr (conjunction space)

def nameList : Reader (List String × Span) := fun ts => do
  let (_, ts) ← expect .lbracket "'['" ts
  let (names, ts) ← if nextIs .rbracket ts then .ok ([], ts) else collect .comma expectName ts
  let (span, ts) ← expect .rbracket "']'" ts
  .ok ((names, span), ts)

def parameters : Reader (List String) := fun ts =>
  if nextIs .lbracket ts then do
    let ((params, _), ts) ← nameList ts
    let (_, ts) ← expect .arrow "'->' after the parameter list" ts
    .ok (params, ts)
  else .ok ([], ts)

def dimensions (opening : Span) : Reader (List String × Span) := fun ts =>
  if nextIs .lbracket ts then nameList ts else .ok (([], opening), ts)

def ofConjunctions (space : Space) (found : List (Option (List Constraint))) :
    Except SetError IntegerSet := do
  IntegerSet.ofPieces space (← (found.filterMap id).mapM (Conjunction.ofConstraints space))

def body (space : Space) : Reader IntegerSet := fun ts =>
  match eat? .colon ts with
  | none => .ok (.univ space, ts)
  | some (_, us) => do
    let (found, rest) ← disjunction space us
    .ok (← located (spanBefore ts rest) (ofConjunctions space found), rest)

def set : Reader IntegerSet := fun ts => do
  let (params, ts) ← parameters ts
  let (opening, ts) ← expect .lbrace "'\x7b'" ts
  let ((dims, last), ts) ← dimensions opening ts
  let space ← located last (Space.ofNames params dims)
  let (s, ts) ← body space ts
  let (_, ts) ← expect .rbrace "'\x7d'" ts
  expectEnd ts
  .ok (s, ts)

end LoopAudit.IntegerSet.Reader

namespace LoopAudit.IntegerSet

def parse (src : String) : Except SyntaxError IntegerSet := do
  let (s, _) ← Reader.set (← Token.scan src)
  .ok s

end LoopAudit.IntegerSet
