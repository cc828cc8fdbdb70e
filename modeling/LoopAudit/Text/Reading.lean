import LoopAudit.Text.Token

/-! Steps shared by the readers of sets and of expressions. A reader takes the tokens that are left
and returns a value with the tokens after it. -/

namespace LoopAudit.Reading

abbrev Reader (α : Type) := List Token → Except SyntaxError (α × List Token)

def spanOf : List Token → Span
  | [] => ⟨0, 0⟩
  | t :: _ => t.span

def spanBefore (ts rest : List Token) : Span := spanOf (ts.drop (ts.length - rest.length - 1))

def nextIs (kind : TokenKind) : List Token → Bool
  | [] => false
  | t :: _ => t.kind == kind

def eat? (kind : TokenKind) : List Token → Option (Span × List Token)
  | [] => none
  | t :: ts => if t.kind = kind then some (t.span, ts) else none

def expect (kind : TokenKind) (what : String) : Reader Span := fun ts =>
  match eat? kind ts with
  | some found => .ok found
  | none => .error ⟨"expected " ++ what, spanOf ts⟩

def expectName : Reader String
  | ⟨.ident name, _⟩ :: ts => .ok (name, ts)
  | ts => .error ⟨"expected identifier", spanOf ts⟩

def expectEnd (ts : List Token) : Except SyntaxError Unit :=
  if nextIs .eof ts then .ok () else .error ⟨"expected end of input", spanOf ts⟩

def iterate {α : Type} (step : α → List Token → Except SyntaxError (Option (α × List Token))) :
    Nat → α → Reader α
  | 0, a, ts => .ok (a, ts)
  | n + 1, a, ts => do
    match ← step a ts with
    | none => .ok (a, ts)
    | some (b, rest) => iterate step n b rest

/-- Repeats a step while it applies. Every step takes a token, so the tokens bound the repeats. -/
def loop {α : Type} (step : α → List Token → Except SyntaxError (Option (α × List Token)))
    (a : α) : Reader α := fun ts => iterate step ts.length a ts

def listStep {α β : Type} (sep : TokenKind) (item : Reader β) (push : α → β → α) (a : α)
    (ts : List Token) : Except SyntaxError (Option (α × List Token)) :=
  match eat? sep ts with
  | none => .ok none
  | some (_, ts) => do
    let (b, ts) ← item ts
    .ok (some (push a b, ts))

def listReader {α β : Type} (sep : TokenKind) (item : Reader β) (start : β → α)
    (push : α → β → α) : Reader α := fun ts => do
  let (b, ts) ← item ts
  loop (listStep sep item push) (start b) ts

def collect {α : Type} (sep : TokenKind) (item : Reader α) : Reader (List α) :=
  listReader sep item (fun a => [a]) fun as a => as ++ [a]

end LoopAudit.Reading
