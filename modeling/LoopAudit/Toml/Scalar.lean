import LoopAudit.Text.Radix
import LoopAudit.Toml.Section

/-! Numbers, words and dates. -/

namespace LoopAudit.Toml

def ungrouped (isDigit : Char → Bool) : List Char → Option (List Char)
  | [] => none
  | [c] => if isDigit c then some [c] else none
  | c :: '_' :: cs => if isDigit c then (c :: ·) <$> ungrouped isDigit cs else none
  | c :: cs => if isDigit c then (c :: ·) <$> ungrouped isDigit cs else none

def wholeDigits (cs : List Char) : Option (List Char) := do
  let digits ← ungrouped Decimal.isDigit cs
  if digits.head? = some '0' && 1 < digits.length then none else some digits

def splitSign : List Char → Bool × List Char
  | '-' :: cs => (true, cs)
  | '+' :: cs => (false, cs)
  | cs => (false, cs)

def signed (negative : Bool) (n : Nat) : Int := if negative then -n else n

def wordValue (n : Int) : Option Value := if Word.Fits n then some (.integer n) else none

def radixInteger (base : Nat) (cs : List Char) : Option Value := do
  let digits ← ungrouped (fun c => (Radix.digit? base c).isSome) cs
  wordValue (← Radix.value? base digits)

def integer : List Char → Option Value
  | '0' :: 'x' :: cs => radixInteger 16 cs
  | '0' :: 'o' :: cs => radixInteger 8 cs
  | '0' :: 'b' :: cs => radixInteger 2 cs
  | cs => do
    let (negative, cs) := splitSign cs
    wordValue (signed negative (Decimal.value (← wholeDigits cs)))

def isGroupChar (c : Char) : Bool := Decimal.isDigit c || c == '_'

def exponent (cs : List Char) : Option Int := do
  let (negative, cs) := splitSign cs
  some (signed negative (Decimal.value (← ungrouped Decimal.isDigit cs)))

def fractionAndExponent : List Char → Option (List Char × Int)
  | '.' :: cs => do
    let places ← ungrouped Decimal.isDigit (cs.takeWhile isGroupChar)
    match cs.dropWhile isGroupChar with
    | [] => some (places, 0)
    | c :: cs => if c = 'e' || c = 'E' then (exponent cs).map fun e => (places, e) else none
  | c :: cs => if c = 'e' || c = 'E' then (exponent cs).map fun e => ([], e) else none
  | [] => none

/-- A float in digits. A positive one has to be finite as a double. -/
def decimalFloat (cs : List Char) : Option Value := do
  let (negative, cs) := splitSign cs
  let whole ← wholeDigits (cs.takeWhile isGroupChar)
  let (places, e) ← fractionAndExponent (cs.dropWhile isGroupChar)
  if negative || Decimal.isFinite (Decimal.value (whole ++ places)) (e - places.length) then
    some .float
  else none

def word (cs : List Char) : Option Value :=
  match String.ofList cs with
  | "true" => some (.boolean true)
  | "false" => some (.boolean false)
  | "inf" => some .float
  | "+inf" => some .float
  | "-inf" => some .float
  | "nan" => some .float
  | "+nan" => some .float
  | "-nan" => some .float
  | _ => none

def field (n lo hi : Nat) (cs : List Char) : Option (Nat × List Char) :=
  let digits := cs.take n
  let v := Decimal.value digits
  if digits.length = n && digits.all Decimal.isDigit && lo ≤ v && v ≤ hi then some (v, cs.drop n)
  else none

def mark (c : Char) : List Char → Option (List Char)
  | d :: cs => if c = d then some cs else none
  | [] => none

def isLeapYear (year : Nat) : Bool := year % 4 == 0 && (year % 100 != 0 || year % 400 == 0)

def daysIn (year month : Nat) : Nat :=
  if month = 2 then if isLeapYear year then 29 else 28
  else if [4, 6, 9, 11].contains month then 30
  else 31

def day (cs : List Char) : Option (List Char) := do
  let (year, cs) ← field 4 0 9999 cs
  let (month, cs) ← field 2 1 12 (← mark '-' cs)
  let (_, cs) ← field 2 1 (daysIn year month) (← mark '-' cs)
  some cs

def clock (cs : List Char) : Option (List Char) := do
  let (_, cs) ← field 2 0 23 cs
  let (_, cs) ← field 2 0 59 (← mark ':' cs)
  let (_, cs) ← field 2 0 60 (← mark ':' cs)
  match cs with
  | '.' :: cs =>
    if (cs.takeWhile Decimal.isDigit).isEmpty then none
    else some (cs.dropWhile Decimal.isDigit)
  | cs => some cs

def isOffset : List Char → Bool
  | [] => true
  | ['Z'] => true
  | ['z'] => true
  | c :: cs =>
    (c == '+' || c == '-') &&
      (do
        let (_, cs) ← field 2 0 23 cs
        let (_, cs) ← field 2 0 59 (← mark ':' cs)
        some cs.isEmpty).getD false

def isClockWithOffset (cs : List Char) : Bool := ((clock cs).map isOffset).getD false

def date (cs : List Char) : Option Value :=
  let isDay := match day cs with
    | none => false
    | some [] => true
    | some (c :: cs) => (c == 'T' || c == 't') && isClockWithOffset cs
  if isDay || clock cs = some [] then some .date else none

def scalar (cs : List Char) : Option Value :=
  date cs <|> decimalFloat cs <|> integer cs <|> word cs

def isScalarChar (c : Char) : Bool :=
  c.isAlphanum || c == '+' || c == '-' || c == '_' || c == '.' || c == ':'

def scalarHere (cs : List Char) : Option (Value × List Char) := do
  let token := cs.takeWhile isScalarChar
  let rest := cs.dropWhile isScalarChar
  let v ← scalar token
  match rest with
  | ' ' :: more =>
    if day token = some [] && isClockWithOffset (more.takeWhile isScalarChar) then
      some (v, more.dropWhile isScalarChar)
    else some (v, rest)
  | _ => some (v, rest)

end LoopAudit.Toml
