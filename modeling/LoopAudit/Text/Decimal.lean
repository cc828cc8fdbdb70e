import LoopAudit.Word

/-! Decimal text of integers: how they are written, and how a run of digits is read. -/

namespace LoopAudit.Decimal

def text (n : Int) : String :=
  if n < 0 then "-" ++ Nat.repr n.natAbs else Nat.repr n.natAbs

def isDigit (c : Char) : Bool := '0' ≤ c && c ≤ '9'

def digitValue (c : Char) : Nat := c.toNat - '0'.toNat

def value (digits : List Char) : Nat :=
  digits.foldl (fun n c => 10 * n + digitValue c) 0

inductive Malformed where
  | empty
  | invalidDigit
  | tooLarge
  | tooSmall
deriving DecidableEq, Repr

def Malformed.message : Malformed → String
  | .empty => "cannot parse integer from empty string"
  | .invalidDigit => "invalid digit found in string"
  | .tooLarge => "number too large to fit in target type"
  | .tooSmall => "number too small to fit in target type"

/-- Reads digits from the left onto `acc`, away from zero in the direction of `sign`. The first
character that is no digit, or that leads outside the word range, ends the reading. -/
def accumulate (sign : Int) (outside : Malformed) (fits : Int → Bool) :
    Int → List Char → Except Malformed Int
  | acc, [] => .ok acc
  | acc, c :: cs =>
    if isDigit c then
      let next := 10 * acc + sign * digitValue c
      if fits next then accumulate sign outside fits next cs else .error outside
    else .error .invalidDigit

def readWord : List Char → Except Malformed Int
  | [] => .error .empty
  | ['+'] => .error .invalidDigit
  | ['-'] => .error .invalidDigit
  | '+' :: digits => accumulate 1 .tooLarge (fun n => Word.Fits n) 0 digits
  | '-' :: digits => accumulate (-1) .tooSmall (fun n => Word.Fits n) 0 digits
  | digits => accumulate 1 .tooLarge (fun n => Word.Fits n) 0 digits

def readBelow (bound : Nat) : List Char → Except Malformed Nat
  | [] => .error .empty
  | ['+'] => .error .invalidDigit
  | '+' :: digits => Int.toNat <$> accumulate 1 .tooLarge (fun n => n < bound) 0 digits
  | digits => Int.toNat <$> accumulate 1 .tooLarge (fun n => n < bound) 0 digits

def isFinite (digits : Nat) (exponent : Int) : Bool :=
  if digits = 0 then true
  else
    let size := (Nat.toDigits 10 digits).length + exponent
    if size < 309 then true
    else if 309 < size then false
    else
      decide (digits * Nat.pow 10 exponent.toNat <
        (Nat.pow 2 1024 - Nat.pow 2 970) * Nat.pow 10 (-exponent).toNat)

end LoopAudit.Decimal
