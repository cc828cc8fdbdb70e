import LoopAudit.Text.Decimal

/-! JSON values and their indented text. -/

namespace LoopAudit

inductive JsonValue where
  | null
  | bool (b : Bool)
  | text (s : String)
  | array (items : List JsonValue)
  | object (members : List (String × JsonValue))
deriving Repr

namespace JsonText

def hexDigit (n : Nat) : Char := "0123456789abcdef".toList.getD n '0'

def escapedChar (c : Char) : List Char :=
  if c = '"' then ['\\', '"']
  else if c = '\\' then ['\\', '\\']
  else if c = '\x08' then ['\\', 'b']
  else if c = '\x0c' then ['\\', 'f']
  else if c = '\n' then ['\\', 'n']
  else if c = '\r' then ['\\', 'r']
  else if c = '\t' then ['\\', 't']
  else if c.toNat < 0x20 then
    ['\\', 'u', '0', '0', hexDigit (c.toNat / 16), hexDigit (c.toNat % 16)]
  else [c]

def stringText (s : String) : String :=
  "\"" ++ String.ofList (s.toList.flatMap escapedChar) ++ "\""

def newline (level : Nat) : String := "\n" ++ String.ofList (List.replicate (2 * level) ' ')

mutual

def valueText (level : Nat) : JsonValue → String
  | .null => "null"
  | .bool true => "true"
  | .bool false => "false"
  | .text s => stringText s
  | .array [] => "[]"
  | .array items => "[" ++ itemsText (level + 1) items ++ newline level ++ "]"
  | .object [] => "\x7b\x7d"
  | .object members => "\x7b" ++ membersText (level + 1) members ++ newline level ++ "\x7d"

def itemsText (level : Nat) : List JsonValue → String
  | [] => ""
  | [v] => newline level ++ valueText level v
  | v :: vs => newline level ++ valueText level v ++ "," ++ itemsText level vs

def membersText (level : Nat) : List (String × JsonValue) → String
  | [] => ""
  | [(k, v)] => newline level ++ stringText k ++ ": " ++ valueText level v
  | (k, v) :: ms =>
    newline level ++ stringText k ++ ": " ++ valueText level v ++ "," ++ membersText level ms

end

end JsonText

def JsonValue.pretty (v : JsonValue) : String := JsonText.valueText 0 v

end LoopAudit
