import LoopAudit.Text.Blank
import LoopAudit.Text.Decimal

/-! Tags that say how a loop variable is executed. -/

namespace LoopAudit

inductive AxisKind where
  | group
  | item
deriving DecidableEq, Repr

def AxisKind.text : AxisKind → String
  | .group => "group"
  | .item => "local"

inductive Tag where
  | groupAxis (n : Nat)
  | localAxis (n : Nat)
  | vector
  | unroll
  /-- A local axis whose number is still to be assigned. -/
  | autoLocal
  | unique (key : String)
deriving DecidableEq, Repr

namespace Tag

def isParallel : Tag → Bool
  | groupAxis _ => true
  | localAxis _ => true
  | autoLocal => true
  | vector => true
  | _ => false

def axisKind? : Tag → Option AxisKind
  | groupAxis _ => some .group
  | localAxis _ => some .item
  | autoLocal => some .item
  | _ => none

def axisIndex? : Tag → Option Nat
  | groupAxis n => some n
  | localAxis n => some n
  | _ => none

def uniqueKey? : Tag → Option String
  | groupAxis n => some ("hw:g." ++ Decimal.text n)
  | localAxis n => some ("hw:l." ++ Decimal.text n)
  | vector => some "hw:vec"
  | unique key => some ("unique:" ++ key)
  | unroll => none
  | autoLocal => none

def text : Tag → String
  | groupAxis n => "g." ++ Decimal.text n
  | localAxis n => "l." ++ Decimal.text n
  | vector => "vec"
  | unroll => "unr"
  | autoLocal => "l.auto"
  | unique key => "unique." ++ key

def axisBound : Nat := 0x100000000

def ofParts? (head : String) (rest : List Char) : Option Tag :=
  match head with
  | "g" => groupAxis <$> (Decimal.readBelow axisBound rest).toOption
  | "l" => localAxis <$> (Decimal.readBelow axisBound rest).toOption
  | "unique" => if rest.isEmpty then none else some (unique (String.ofList rest))
  | _ => none

def parse? (src : String) : Option Tag :=
  let body := Text.trim src.toList
  match String.ofList body with
  | "vec" => some vector
  | "unr" => some unroll
  | "l.auto" => some autoLocal
  | _ =>
    match Text.splitAt? '.' body with
    | none => none
    | some (head, rest) => ofParts? (String.ofList head) rest

end Tag

end LoopAudit
