import LoopAudit.JsonText
import LoopAudit.Text.Radix
import LoopAudit.Text.Token
import LoopAudit.Text.Quoted

/-! Reading the elements of JSON text: blanks, words, numbers and strings. A text is read from left
to right, and the first fault ends the reading. -/

namespace LoopAudit.JsonText

inductive Fault where
  | truncated
  | malformed
  | mismatch (reason : String)
deriving DecidableEq, Repr

abbrev Decoder (α : Type) := List Char → Except Fault (α × List Char)

def isBlank (c : Char) : Bool := c == ' ' || c == '\n' || c == '\t' || c == '\r'

def skipBlank (cs : List Char) : List Char := cs.dropWhile isBlank

def word : List Char → List Char → Except Fault (List Char)
  | [], cs => .ok cs
  | _ :: _, [] => .error .truncated
  | w :: ws, c :: cs => if c = w then word ws cs else .error .malformed

inductive Number where
  | integer (n : Int)
  | decimal (negative : Bool) (digits : Nat) (exponent : Int)
deriving DecidableEq, Repr

/-- Digits, one at least. Whether a text that ends here was cut off or is malformed depends on
whether its value matters. -/
def digits1 (matters : Bool) (cs : List Char) : Except Fault (List Char × List Char) :=
  let ds := cs.takeWhile Decimal.isDigit
  if ds.isEmpty then
    if cs.isEmpty && matters then .error .truncated else .error .malformed
  else .ok (ds, cs.drop ds.length)

def wholeDigits (matters : Bool) (cs : List Char) : Except Fault (List Char × List Char) := do
  let (ds, rest) ← digits1 matters cs
  match ds with
  | '0' :: _ :: _ => .error .malformed
  | _ => .ok (ds, rest)

def fractionDigits (matters : Bool) : List Char → Except Fault (Option (List Char) × List Char)
  | '.' :: cs => do
    let (ds, rest) ← digits1 matters cs
    .ok (some ds, rest)
  | cs => .ok (none, cs)

def signedExponent (matters : Bool) : List Char → Except Fault (Int × List Char)
  | '-' :: cs => do
    let (ds, rest) ← digits1 matters cs
    .ok (-(Decimal.value ds : Int), rest)
  | '+' :: cs => do
    let (ds, rest) ← digits1 matters cs
    .ok (Decimal.value ds, rest)
  | cs => do
    let (ds, rest) ← digits1 matters cs
    .ok (Decimal.value ds, rest)

def exponent (matters : Bool) : List Char → Except Fault (Option Int × List Char)
  | c :: cs =>
    if c = 'e' || c = 'E' then do
      let (e, rest) ← signedExponent matters cs
      .ok (some e, rest)
    else .ok (none, c :: cs)
  | [] => .ok (none, [])

/-- The parts of a number put together; whole numbers outside the 64-bit kinds, and minus zero, are
decimals. -/
def assemble (negative : Bool) (whole : List Char) (fraction : Option (List Char))
    (exp : Option Int) : Number :=
  match fraction, exp with
  | none, none =>
    let n : Int := Decimal.value whole
    if negative then
      if 0 < n ∧ Word.Fits (-n) then .integer (-n) else .decimal true n.toNat 0
    else if n < 0x10000000000000000 then .integer n
    else .decimal false n.toNat 0
  | _, _ =>
    let places := fraction.getD []
    .decimal negative (Decimal.value (whole ++ places)) (exp.getD 0 - places.length)

def magnitude (matters negative : Bool) (cs : List Char) : Except Fault (Number × List Char) := do
  let (whole, cs) ← wholeDigits matters cs
  let (fraction, cs) ← fractionDigits matters cs
  let (exp, cs) ← exponent matters cs
  let n := assemble negative whole fraction exp
  match n with
  | .decimal _ ds e => if matters && !Decimal.isFinite ds e then .error .malformed else .ok (n, cs)
  | .integer _ => .ok (n, cs)

def number (matters : Bool) : Decoder Number
  | '-' :: cs => magnitude matters true cs
  | cs => magnitude matters false cs

def codeUnit (cs : List Char) : Except Fault Nat :=
  if Token.byteLength (cs.take 4) < 4 then .error .truncated
  else
    match Radix.value? 16 (cs.take 4) with
    | some n => .ok n
    | none => .error .malformed

/-- The character of an escape after `\u`, and how many characters it takes: a code unit, or two
that form a surrogate pair. When the value does not matter, one code unit is enough. -/
def unicodeEscape (matters : Bool) (cs : List Char) : Except Fault (Char × Nat) := do
  let n ← codeUnit cs
  if !matters then .ok (Char.ofNat n, 4)
  else if 0xDC00 ≤ n && n ≤ 0xDFFF then .error .malformed
  else if n < 0xD800 || 0xDBFF < n then .ok (Char.ofNat n, 4)
  else
    match cs.drop 4 with
    | [] => .error .truncated
    | ['\\'] => .error .truncated
    | '\\' :: 'u' :: rest =>
      let m ← codeUnit rest
      if m < 0xDC00 || 0xDFFF < m then .error .malformed
      else .ok (Char.ofNat (0x10000 + (n - 0xD800) * 0x400 + (m - 0xDC00)), 10)
    | _ => .error .malformed

def escape (matters : Bool) : List Char → Except Fault (Char × Nat)
  | [] => .error .truncated
  | '"' :: _ => .ok ('"', 1)
  | '\\' :: _ => .ok ('\\', 1)
  | '/' :: _ => .ok ('/', 1)
  | 'b' :: _ => .ok ('\x08', 1)
  | 'f' :: _ => .ok ('\x0c', 1)
  | 'n' :: _ => .ok ('\n', 1)
  | 'r' :: _ => .ok ('\r', 1)
  | 't' :: _ => .ok ('\t', 1)
  | 'u' :: cs => do
    let (c, n) ← unicodeEscape matters cs
    .ok (c, n + 1)
  | _ => .error .malformed

def stringChars (matters : Bool) (cs : List Char) : Except Fault (List Char × List Char) :=
  match cs with
  | [] => .error .truncated
  | c :: cs =>
    if c = '"' then .ok ([], cs)
    else if c = '\\' then do
      let (e, n) ← escape matters cs
      let (es, rest) ← stringChars matters (cs.drop n)
      .ok (e :: es, rest)
    else if c.toNat < 0x20 then .error .malformed
    else do
      let (es, rest) ← stringChars matters cs
      .ok (c :: es, rest)
termination_by cs.length
decreasing_by all_goals (simp only [List.length_drop, List.length_cons]; omega)

def stringTail : Decoder String := fun cs => do
  let (es, rest) ← stringChars true cs
  .ok (String.ofList es, rest)

end LoopAudit.JsonText
