import LoopAudit.Text.Radix

/-! Blanks, comments, strings and keys. -/

namespace LoopAudit.Toml

def isSpace (c : Char) : Bool := c == ' ' || c == '\t'

def isPlain (c : Char) : Bool := c == '\t' || (0x20 ≤ c.toNat && c.toNat != 0x7F)

def skipSpace (cs : List Char) : List Char := cs.dropWhile isSpace

def newline : List Char → Option (List Char)
  | '\n' :: cs => some cs
  | '\r' :: '\n' :: cs => some cs
  | _ => none

def lineEnd (cs : List Char) : Option (List Char) :=
  let rest := match skipSpace cs with
    | '#' :: cs => cs.dropWhile isPlain
    | cs => cs
  if rest.isEmpty then some [] else newline rest

def filler (inComment : Bool) : List Char → Option (List Char)
  | [] => if inComment then none else some []
  | '\n' :: cs => filler false cs
  | '\r' :: '\n' :: cs => filler false cs
  | c :: cs =>
    if inComment then if isPlain c then filler true cs else none
    else if isSpace c then filler false cs
    else if c = '#' then filler true cs
    else some (c :: cs)

def codePoint (digits : List Char) : Option Char := do
  let n ← Radix.value? 16 digits
  if n.isValidChar then some (Char.ofNat n) else none

def escape : List Char → Option (Char × Nat)
  | 'b' :: _ => some ('\x08', 1)
  | 't' :: _ => some ('\t', 1)
  | 'n' :: _ => some ('\n', 1)
  | 'f' :: _ => some ('\x0c', 1)
  | 'r' :: _ => some ('\r', 1)
  | '"' :: _ => some ('"', 1)
  | '\\' :: _ => some ('\\', 1)
  | 'u' :: cs => if cs.length < 4 then none else (codePoint (cs.take 4)).map fun c => (c, 5)
  | 'U' :: cs => if cs.length < 8 then none else (codePoint (cs.take 8)).map fun c => (c, 9)
  | _ => none

def basicChars (cs : List Char) : Option (List Char × List Char) :=
  match cs with
  | [] => none
  | c :: cs =>
    if c = '"' then some ([], cs)
    else if c = '\\' then do
      let (e, n) ← escape cs
      let (es, rest) ← basicChars (cs.drop n)
      some (e :: es, rest)
    else if isPlain c then do
      let (es, rest) ← basicChars cs
      some (c :: es, rest)
    else none
termination_by cs.length
decreasing_by all_goals (simp only [List.length_drop, List.length_cons]; omega)

def literalChars (cs : List Char) : Option (List Char × List Char) :=
  let inside := cs.takeWhile fun c => isPlain c && c != '\x27'
  match cs.drop inside.length with
  | '\x27' :: rest => some (inside, rest)
  | _ => none

/-- The end of a string of several lines: three quotes, and up to two more that belong to it. -/
def closing (quote : Char) : List Char → Option (List Char × List Char)
  | a :: b :: c :: cs =>
    if a = quote && b = quote && c = quote then
      let extra := (cs.take 2).takeWhile (· == quote)
      some (extra, cs.drop extra.length)
    else none
  | _ => none

def continuation (cs : List Char) : Option Nat := do
  let rest ← newline (skipSpace cs)
  let more := rest.dropWhile fun c => isSpace c || c == '\n' || c == '\r'
  some (cs.length - more.length)

def longChars (quote : Char) (escapes : Bool) (cs : List Char) :
    Option (List Char × List Char) :=
  match closing quote cs with
  | some found => some found
  | none =>
    match cs with
    | [] => none
    | '\r' :: '\n' :: cs => do
      let (es, rest) ← longChars quote escapes cs
      some ('\n' :: es, rest)
    | c :: cs =>
      if escapes && c == '\\' then
        match continuation cs with
        | some n => longChars quote escapes (cs.drop n)
        | none => do
          let (e, n) ← escape cs
          let (es, rest) ← longChars quote escapes (cs.drop n)
          some (e :: es, rest)
      else if isPlain c || c = '\n' then do
        let (es, rest) ← longChars quote escapes cs
        some (c :: es, rest)
      else none
termination_by cs.length
decreasing_by all_goals (simp only [List.length_drop, List.length_cons]; omega)

def longString (quote : Char) (escapes : Bool) (cs : List Char) : Option (List Char × List Char) :=
  longChars quote escapes ((newline cs).getD cs)

def quotedHere : List Char → Option (List Char × List Char)
  | '"' :: '"' :: '"' :: cs => longString '"' true cs
  | '"' :: cs => basicChars cs
  | '\x27' :: '\x27' :: '\x27' :: cs => longString '\x27' false cs
  | '\x27' :: cs => literalChars cs
  | _ => none

def isBareKeyChar (c : Char) : Bool := c.isAlphanum || c == '-' || c == '_'

def keyPart : List Char → Option (String × List Char)
  | '"' :: cs => (basicChars cs).map fun found => (String.ofList found.1, found.2)
  | '\x27' :: cs => (literalChars cs).map fun found => (String.ofList found.1, found.2)
  | cs =>
    let name := cs.takeWhile isBareKeyChar
    if name.isEmpty then none else some (String.ofList name, cs.drop name.length)

def keyParts : Nat → List Char → Option (List String × List Char)
  | 0, _ => none
  | n + 1, cs => do
    let (part, cs) ← keyPart (skipSpace cs)
    match skipSpace cs with
    | '.' :: cs => do
      let (parts, cs) ← keyParts n cs
      some (part :: parts, cs)
    | cs => some ([part], cs)

end LoopAudit.Toml
