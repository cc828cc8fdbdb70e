import LoopAudit.Toml.Scalar
import LoopAudit.Toml.Text

/-! Reading documents. -/

namespace LoopAudit.Toml

def maxDepth : Nat := 79

def arrayItems (item : List Char → Option (Value × List Char)) :
    Nat → List Char → Option (List Value × List Char)
  | 0, _ => none
  | n + 1, cs => do
    match ← filler false cs with
    | ']' :: cs => some ([], cs)
    | cs => do
      let (v, cs) ← item cs
      match ← filler false cs with
      | ',' :: cs => do
        let (vs, cs) ← arrayItems item n cs
        some (v :: vs, cs)
      | ']' :: cs => some ([v], cs)
      | _ => none

def keyValue (item : List Char → Option (Value × List Char)) (cs : List Char) :
    Option (List String × Value × List Char) := do
  let (parts, cs) ← keyParts maxDepth cs
  let (v, cs) ← item (skipSpace (← mark '=' cs))
  some (parts, v, cs)

def bracedEntries (item : List Char → Option (Value × List Char)) :
    Nat → Section → List Char → Option (Section × List Char)
  | 0, _, _ => none
  | n + 1, s, cs => do
    let (parts, v, cs) ← keyValue item cs
    let s ← s.assign parts v
    match skipSpace cs with
    | ',' :: cs => bracedEntries item n s cs
    | '\x7d' :: cs => some (s, cs)
    | _ => none

def value : Nat → List Char → Option (Value × List Char)
  | n, '[' :: cs =>
    match n with
    | 0 => none
    | n + 1 => do
      let (vs, cs) ← arrayItems (value n) (cs.length + 1) cs
      some (.array vs, cs)
  | n, '\x7b' :: cs =>
    match n with
    | 0 => none
    | n + 1 =>
      match skipSpace cs with
      | '\x7d' :: cs => some (.table .braces [], cs)
      | cs => do
        let (s, cs) ← bracedEntries (value n) (cs.length + 1) ⟨.braces, []⟩ cs
        some (s.toValue, cs)
  | _, cs =>
    match quotedHere cs with
    | some (s, cs) => some (.text (String.ofList s), cs)
    | none => scalarHere cs

structure Draft where
  root : Section
  path : List String

namespace Draft

def start : Draft := ⟨⟨.header, []⟩, []⟩

def statement (d : Draft) (cs : List Char) : Option (Draft × List Char) :=
  match cs with
  | '[' :: '[' :: cs => do
    let (parts, cs) ← keyParts maxDepth cs
    let cs ← mark ']' (← mark ']' cs)
    some (⟨← d.root.openElement parts, parts⟩, cs)
  | '[' :: cs => do
    let (parts, cs) ← keyParts maxDepth cs
    let cs ← mark ']' cs
    some (⟨← d.root.openTable parts, parts⟩, cs)
  | cs => do
    let (parts, v, cs) ← keyValue (value maxDepth) cs
    some (⟨← d.root.within false (Section.assign parts v) d.path, d.path⟩, cs)

def line (d : Draft) (cs : List Char) : Option (Draft × List Char) :=
  match lineEnd cs with
  | some rest => some (d, rest)
  | none => do
    let (d, cs) ← d.statement (skipSpace cs)
    some (d, ← lineEnd cs)

def lines : Nat → Draft → List Char → Option Draft
  | 0, _, _ => none
  | _ + 1, d, [] => some d
  | n + 1, d, cs => do
    let (d, cs) ← d.line cs
    lines n d cs

end Draft

def parse (src : String) : Option Section :=
  let cs := match src.toList with
    | '\ufeff' :: cs => cs
    | cs => cs
  (Draft.lines (cs.length + 1) .start cs).map fun d => d.root

end LoopAudit.Toml
