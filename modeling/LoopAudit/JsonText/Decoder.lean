import LoopAudit.JsonText.Scan

/-! Decoders: what shape of JSON is asked for. Each reads a value at the start of a text. A value of
another kind is a mismatch that names what was found and what was expected. -/

namespace LoopAudit.JsonText

def shortened : Nat → Nat → Int → Nat × Int
  | 0, n, e => (n, e)
  | fuel + 1, n, e =>
    if n ≠ 0 ∧ n % 10 = 0 then shortened fuel (n / 10) (e + 1) else (n, e)

def decimalText (negative : Bool) (digits : Nat) (exponent : Int) : String :=
  let (n, e) := shortened (Nat.toDigits 10 digits).length digits exponent
  let ds := Nat.toDigits 10 n
  let zeros (k : Int) : List Char := List.replicate k.toNat '0'
  let point : Int := ds.length + e
  let body : List Char :=
    if n = 0 then ['0', '.', '0']
    else if 0 ≤ e ∧ point ≤ 16 then ds ++ zeros e ++ ['.', '0']
    else if 0 < point ∧ point ≤ 16 then ds.take point.toNat ++ '.' :: ds.drop point.toNat
    else if -5 < point ∧ point ≤ 0 then ['0', '.'] ++ zeros (-point) ++ ds
    else
      let mantissa := match ds with
        | [d] => [d]
        | d :: rest => d :: '.' :: rest
        | [] => []
      mantissa ++ 'e' :: (Decimal.text (point - 1)).toList
  (if negative then "-" else "") ++ String.ofList body

def found : List Char → Except Fault String
  | 'n' :: cs => do
    let _ ← word ['u', 'l', 'l'] cs
    .ok "null"
  | 't' :: cs => do
    let _ ← word ['r', 'u', 'e'] cs
    .ok "boolean `true`"
  | 'f' :: cs => do
    let _ ← word ['a', 'l', 's', 'e'] cs
    .ok "boolean `false`"
  | '"' :: cs => do
    let (s, _) ← stringTail cs
    .ok ("string " ++ Text.quoted s)
  | '[' :: _ => .ok "sequence"
  | '\x7b' :: _ => .ok "map"
  | c :: cs =>
    if c = '-' || Decimal.isDigit c then do
      match ← number true (c :: cs) with
      | (.integer n, _) => .ok ("integer `" ++ Decimal.text n ++ "`")
      | (.decimal neg ds e, _) => .ok ("floating point `" ++ decimalText neg ds e ++ "`")
    else .error .malformed
  | [] => .error .malformed

def unexpected {α : Type} (expected : String) (cs : List Char) : Except Fault α := do
  let what ← found cs
  .error (.mismatch ("invalid type: " ++ what ++ ", expected " ++ expected))

def string : Decoder String := fun cs =>
  match skipBlank cs with
  | [] => .error .truncated
  | '"' :: cs => stringTail cs
  | cs => unexpected "a string" cs

def boolean : Decoder Bool := fun cs =>
  match skipBlank cs with
  | [] => .error .truncated
  | 't' :: cs => do .ok (true, ← word ['r', 'u', 'e'] cs)
  | 'f' :: cs => do .ok (false, ← word ['a', 'l', 's', 'e'] cs)
  | cs => unexpected "a boolean" cs

def nullable {α : Type} (item : Decoder α) : Decoder (Option α) := fun cs =>
  match skipBlank cs with
  | 'n' :: cs => do .ok (none, ← word ['u', 'l', 'l'] cs)
  | cs => do
    let (a, cs) ← item cs
    .ok (some a, cs)

def nextItem (first : Bool) (cs : List Char) : Except Fault (Option (List Char)) :=
  match skipBlank cs with
  | [] => .error .truncated
  | ']' :: _ => .ok none
  | c :: cs =>
    if first then .ok (some (c :: cs))
    else if c = ',' then
      match skipBlank cs with
      | [] => .error .truncated
      | ']' :: _ => .error .malformed
      | cs => .ok (some cs)
    else .error .malformed

def items {α : Type} (item : Decoder α) : Nat → Bool → Decoder (List α)
  | 0, _, _ => .error .truncated
  | n + 1, first, cs => do
    match ← nextItem first cs with
    | none => .ok ([], (skipBlank cs).tail)
    | some cs =>
      let (a, cs) ← item cs
      let (as, cs) ← items item n false cs
      .ok (a :: as, cs)

/-- An array, after its opening bracket. Every item takes a character. -/
def arrayTail {α : Type} (item : Decoder α) : Decoder (List α) := fun cs =>
  items item (cs.length + 1) true cs

def array {α : Type} (item : Decoder α) : Decoder (List α) := fun cs =>
  match skipBlank cs with
  | [] => .error .truncated
  | '[' :: cs => arrayTail item cs
  | cs => unexpected "a sequence" cs

def colon (cs : List Char) : Except Fault (List Char) :=
  match skipBlank cs with
  | [] => .error .truncated
  | ':' :: cs => .ok cs
  | _ => .error .malformed

def nextKey (first : Bool) (cs : List Char) : Except Fault (Option (List Char)) :=
  match skipBlank cs with
  | [] => .error .truncated
  | '\x7d' :: _ => .ok none
  | c :: cs =>
    if first then
      if c = '"' then .ok (some cs) else .error .malformed
    else if c = ',' then
      match skipBlank cs with
      | [] => .error .truncated
      | '"' :: cs => .ok (some cs)
      | _ => .error .malformed
    else .error .malformed

/-- Folds over the members of an object up to its closing brace, at most `n`. A member is read
from after the quote of its key. -/
def members {σ : Type} (member : σ → Decoder σ) : Nat → Bool → σ → Decoder σ
  | 0, _, _, _ => .error .truncated
  | n + 1, first, s, cs => do
    match ← nextKey first cs with
    | none => .ok (s, (skipBlank cs).tail)
    | some cs =>
      let (s, cs) ← member s cs
      members member n false s cs

def objectTail {σ : Type} (member : σ → Decoder σ) (start : σ) : Decoder σ := fun cs =>
  members member (cs.length + 1) true start cs

def entryMember {κ α : Type} (key : Decoder κ) (value : Decoder α) (found : List (κ × α)) :
    Decoder (List (κ × α)) := fun cs => do
  let (k, cs) ← key cs
  let (v, cs) ← value (← colon cs)
  .ok (found ++ [(k, v)], cs)

def entries {κ α : Type} (key : Decoder κ) (value : Decoder α) : Decoder (List (κ × α)) := fun cs =>
  match skipBlank cs with
  | [] => .error .truncated
  | '\x7b' :: cs => objectTail (entryMember key value) [] cs
  | cs => unexpected "a map" cs

def numericKey (bound : Nat) (expected : String) : Decoder Nat := fun cs =>
  match cs with
  | [] => .error .malformed
  | c :: _ =>
    if c = '-' || Decimal.isDigit c then do
      let n ← number true cs
      match n with
      | (.integer v, rest) =>
        if v < 0 ∨ (bound : Int) ≤ v then
          .error (.mismatch
            ("invalid value: integer `" ++ Decimal.text v ++ "`, expected " ++ expected))
        else
          match rest with
          | '"' :: rest => .ok (v.toNat, rest)
          | _ => .error .malformed
      | (.decimal _ _ _, _) => unexpected expected cs
    else .error .malformed

def skip : Nat → Decoder Unit
  | 0, _ => .error .malformed
  | n + 1, cs =>
    match skipBlank cs with
    | [] => .error .truncated
    | 'n' :: cs => do .ok ((), ← word ['u', 'l', 'l'] cs)
    | 't' :: cs => do .ok ((), ← word ['r', 'u', 'e'] cs)
    | 'f' :: cs => do .ok ((), ← word ['a', 'l', 's', 'e'] cs)
    | '"' :: cs => do .ok ((), (← stringChars false cs).2)
    | '[' :: cs => do .ok ((), (← arrayTail (skip n) cs).2)
    | '\x7b' :: cs =>
      objectTail
        (fun _ cs => do
          let (_, cs) ← stringChars false cs
          skip n (← colon cs))
        () cs
    | c :: cs =>
      if c = '-' || Decimal.isDigit c then do .ok ((), (← number false (c :: cs)).2)
      else .error .malformed

def anything : Decoder Unit := fun cs => skip (cs.length + 1) cs

def maxDepth : Nat := 128

inductive Atom where
  | integer (n : Int)
  | text (s : String)
  | other
deriving DecidableEq, Repr

def atom : Nat → Decoder Atom
  | 0, _ => .error .malformed
  | depth + 1, cs =>
    match skipBlank cs with
    | [] => .error .truncated
    | 'n' :: cs => do .ok (.other, ← word ['u', 'l', 'l'] cs)
    | 't' :: cs => do .ok (.other, ← word ['r', 'u', 'e'] cs)
    | 'f' :: cs => do .ok (.other, ← word ['a', 'l', 's', 'e'] cs)
    | '"' :: cs => do
      let (s, cs) ← stringTail cs
      .ok (.text s, cs)
    | '[' :: cs =>
      if depth = 0 then .error .malformed else do .ok (.other, (← arrayTail (atom depth) cs).2)
    | '\x7b' :: cs =>
      if depth = 0 then .error .malformed
      else
        objectTail
          (fun _ cs => do
            let (_, cs) ← stringTail cs
            let (_, cs) ← atom depth (← colon cs)
            .ok (.other, cs))
          .other cs
    | c :: cs =>
      if c = '-' || Decimal.isDigit c then do
        match ← number true (c :: cs) with
        | (.integer n, cs) => .ok (if Word.Fits n then .integer n else .other, cs)
        | (.decimal _ _ _, cs) => .ok (.other, cs)
      else .error .malformed

def variant {α : Type} (options : List (String × α)) : Decoder α := fun cs => do
  let choose (s : String) : Except Fault α :=
    match options.lookup s with
    | some a => .ok a
    | none =>
      let names := ", ".intercalate (options.map fun o => "`" ++ o.1 ++ "`")
      .error (.mismatch ("unknown variant `" ++ s ++ "`, expected one of " ++ names))
  match skipBlank cs with
  | [] => .error .truncated
  | '"' :: cs =>
    let (s, cs) ← stringTail cs
    .ok (← choose s, cs)
  | '\x7b' :: cs =>
    let (s, cs) ← match skipBlank cs with
      | [] => .error .truncated
      | '"' :: cs => stringTail cs
      | cs => unexpected "variant identifier" cs
    let a ← choose s
    let cs ← colon cs
    let cs ← match skipBlank cs with
      | [] => .error .truncated
      | 'n' :: cs => word ['u', 'l', 'l'] cs
      | cs => unexpected "unit" cs
    match skipBlank cs with
    | [] => .error .truncated
    | '\x7d' :: cs => .ok (a, cs)
    | _ => .error .malformed
  | _ => .error .malformed

structure RecordField (σ : Type) where
  name : String
  required : Bool
  read : σ → Decoder σ

def fieldMember {σ : Type} (fields : List (RecordField σ)) (state : σ × List String) :
    Decoder (σ × List String) := fun cs => do
  let (key, cs) ← stringTail cs
  match fields.find? fun f => f.name == key with
  | none => do
    let (_, cs) ← anything (← colon cs)
    .ok (state, cs)
  | some f =>
    if state.2.contains key then .error (.mismatch ("duplicate field `" ++ key ++ "`"))
    else do
      let (s, cs) ← f.read state.1 (← colon cs)
      .ok ((s, key :: state.2), cs)

def arrayEnd {α : Type} (a : α) : Decoder α := fun cs =>
  match skipBlank cs with
  | [] => .error .truncated
  | ']' :: cs => .ok (a, cs)
  | _ => .error .malformed

def positional {σ : Type} (expected : String) (index : Nat) :
    List (RecordField σ) → Bool → σ → Decoder σ
  | [], _, s, cs => arrayEnd s cs
  | f :: fs, first, s, cs => do
    match ← nextItem first cs with
    | some cs =>
      let (s, cs) ← f.read s cs
      positional expected (index + 1) fs false s cs
    | none =>
      if f.required then
        .error (.mismatch ("invalid length " ++ Decimal.text index ++ ", expected " ++ expected))
      else positional expected (index + 1) fs first s cs

def record {σ : Type} (name : String) (fields : List (RecordField σ)) (start : σ) : Decoder σ :=
  fun cs =>
  match skipBlank cs with
  | [] => .error .truncated
  | '[' :: cs =>
    let size := Decimal.text fields.length
    positional ("struct " ++ name ++ " with " ++ size ++ " elements") 0 fields true start cs
  | '\x7b' :: cs => do
    let ((s, seen), cs) ← objectTail (fieldMember fields) (start, []) cs
    match fields.find? fun f => f.required && !seen.contains f.name with
    | some f => .error (.mismatch ("missing field `" ++ f.name ++ "`"))
    | none => .ok (s, cs)
  | cs => unexpected ("struct " ++ name) cs

def whole {α : Type} (value : Decoder α) (src : String) : Except Fault α := do
  let (a, rest) ← value src.toList
  if (skipBlank rest).isEmpty then .ok a else .error .malformed

end LoopAudit.JsonText
