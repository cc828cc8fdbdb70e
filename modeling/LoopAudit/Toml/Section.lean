import LoopAudit.Table

/-! Documents as nested tables of values, and the rules by which tables are opened and filled. -/

namespace LoopAudit.Toml

/-- How a table came to be, which says how it may grow: under a header of its own, on the way to
the header of another table, by dotted keys, or between braces. -/
inductive Origin where
  | header
  | implied
  | dotted
  | braces
deriving DecidableEq, Repr

inductive Value where
  | text (s : String)
  | integer (n : Int)
  | float
  | boolean (b : Bool)
  | date
  | array (items : List Value)
  | table (origin : Origin) (entries : List (String × Value))
  | tables (elements : List (List (String × Value)))
deriving Repr

structure Section where
  origin : Origin
  entries : List (String × Value)
deriving Repr

namespace Section

def get? (s : Section) (key : String) : Option Value := s.entries.lookup key

def put (s : Section) (key : String) (v : Value) : Section :=
  { s with entries := LoopAudit.Table.insert key v s.entries }

def toValue (s : Section) : Value := .table s.origin s.entries

/-- Works on the table at the end of a path, and opens tables that are missing on the way. The path
is part of a header, or of a dotted key, which may not go through a table with a header. Of several
tables under one name the last is meant. -/
def within (dotted : Bool) (f : Section → Option Section) : List String → Section → Option Section
  | [], s => f s
  | key :: path, s =>
    match s.get? key with
    | none => do
      let child ← within dotted f path ⟨if dotted then .dotted else .implied, []⟩
      some (s.put key child.toValue)
    | some (.table origin entries) =>
      if origin = .braces || (dotted && origin = .header) then none
      else do
        let child ← within dotted f path ⟨origin, entries⟩
        some (s.put key child.toValue)
    | some (.tables elements) => do
      let last ← elements.getLast?
      let child ← within dotted f path ⟨.header, last⟩
      some (s.put key (.tables (elements.dropLast ++ [child.entries])))
    | some _ => none

def add (key : String) (v : Value) (s : Section) : Option Section :=
  match s.get? key with
  | none => some (s.put key v)
  | some _ => none

def assign (parts : List String) (v : Value) (s : Section) : Option Section := do
  let key ← parts.getLast?
  let path := parts.dropLast
  within true
    (fun target =>
      if path.isEmpty || target.origin = .dotted then target.add key v else none)
    path s

def openTable (parts : List String) (root : Section) : Option Section := do
  let key ← parts.getLast?
  within false
    (fun s =>
      match s.get? key with
      | none => some (s.put key (.table .header []))
      | some (.table .implied entries) => some (s.put key (.table .header entries))
      | some _ => none)
    parts.dropLast root

def openElement (parts : List String) (root : Section) : Option Section := do
  let key ← parts.getLast?
  within false
    (fun s =>
      match s.get? key with
      | none => some (s.put key (.tables [[]]))
      | some (.tables elements) => some (s.put key (.tables (elements ++ [[]])))
      | some _ => none)
    parts.dropLast root

end Section

end LoopAudit.Toml
