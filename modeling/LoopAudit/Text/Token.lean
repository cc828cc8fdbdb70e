import LoopAudit.Text.Decimal
import LoopAudit.Text.SyntaxError

/-! Tokens shared by the text of sets and the text of expressions. The longest spelling wins, and a
word that is a keyword is never a name. -/

namespace LoopAudit

inductive TokenKind where
  | kwAnd
  | kwOr
  | kwTrue
  | kwFalse
  | kwMod
  | arrow
  | colon
  | semi
  | comma
  | eq
  | eqEq
  | lt
  | le
  | gt
  | ge
  | plus
  | minus
  | star
  | slash
  | slashSlash
  | percent
  | lparen
  | rparen
  | lbrace
  | rbrace
  | lbracket
  | rbracket
  | eof
  | int (value : Int)
  | ident (name : String)
deriving DecidableEq, Repr

structure Token where
  kind : TokenKind
  span : Span
deriving DecidableEq, Repr

namespace Token

def isBlank (c : Char) : Bool := c == ' ' || c == '\t' || c == '\r' || c == '\n' || c == '\x0c'

def isLetter (c : Char) : Bool := ('a' ≤ c && c ≤ 'z') || ('A' ≤ c && c ≤ 'Z') || c == '_'

def isWordChar (c : Char) : Bool := isLetter c || Decimal.isDigit c

def ofWord : String → TokenKind
  | "and" => .kwAnd
  | "or" => .kwOr
  | "true" => .kwTrue
  | "false" => .kwFalse
  | "mod" => .kwMod
  | name => .ident name

def punctuation? (c : Char) (cs : List Char) : Option (TokenKind × Nat) :=
  match c, cs with
  | '&', '&' :: _ => some (.kwAnd, 1)
  | '|', '|' :: _ => some (.kwOr, 1)
  | '-', '>' :: _ => some (.arrow, 1)
  | '=', '=' :: _ => some (.eqEq, 1)
  | '<', '=' :: _ => some (.le, 1)
  | '>', '=' :: _ => some (.ge, 1)
  | '/', '/' :: _ => some (.slashSlash, 1)
  | ':', _ => some (.colon, 0)
  | ';', _ => some (.semi, 0)
  | ',', _ => some (.comma, 0)
  | '=', _ => some (.eq, 0)
  | '<', _ => some (.lt, 0)
  | '>', _ => some (.gt, 0)
  | '+', _ => some (.plus, 0)
  | '-', _ => some (.minus, 0)
  | '*', _ => some (.star, 0)
  | '/', _ => some (.slash, 0)
  | '%', _ => some (.percent, 0)
  | '(', _ => some (.lparen, 0)
  | ')', _ => some (.rparen, 0)
  | '\x7b', _ => some (.lbrace, 0)
  | '\x7d', _ => some (.rbrace, 0)
  | '[', _ => some (.lbracket, 0)
  | ']', _ => some (.rbracket, 0)
  | _, _ => none

def byteLength (cs : List Char) : Nat := cs.foldl (fun n c => n + c.utf8Size) 0

def next (c : Char) (cs : List Char) : Option TokenKind × Nat :=
  if isLetter c then
    let tail := cs.takeWhile isWordChar
    (some (ofWord (String.ofList (c :: tail))), tail.length)
  else if Decimal.isDigit c then
    let tail := cs.takeWhile Decimal.isDigit
    ((Word.checked (Decimal.value (c :: tail))).map .int, tail.length)
  else
    match punctuation? c cs with
    | some (kind, extra) => (some kind, extra)
    | none => (none, 0)

def scanFrom (offset : Nat) (text : List Char) : Except SyntaxError (List Token) :=
  match text with
  | [] => .ok [⟨.eof, ⟨offset, 0⟩⟩]
  | c :: cs =>
    if isBlank c then scanFrom (offset + c.utf8Size) cs
    else
      let found := next c cs
      let spelling := c :: cs.take found.2
      let span : Span := ⟨offset, byteLength spelling⟩
      match found.1 with
      | none => .error ⟨"unexpected input '" ++ String.ofList spelling ++ "'", span⟩
      | some kind => do
        let rest ← scanFrom (offset + span.length) (cs.drop found.2)
        .ok (⟨kind, span⟩ :: rest)
termination_by text.length
decreasing_by all_goals (simp only [List.length_drop, List.length_cons]; omega)

def scan (src : String) : Except SyntaxError (List Token) := scanFrom 0 src.toList

end Token

end LoopAudit
