import LoopAudit.Text.Decimal

/-! Digits of numbers in bases up to sixteen. -/

namespace LoopAudit.Radix

def digit? (base : Nat) (c : Char) : Option Nat :=
  let n? :=
    if Decimal.isDigit c then some (Decimal.digitValue c)
    else if 'a' ≤ c && c ≤ 'f' then some (c.toNat - 'a'.toNat + 10)
    else if 'A' ≤ c && c ≤ 'F' then some (c.toNat - 'A'.toNat + 10)
    else none
  n?.filter fun n => n < base

def value? (base : Nat) (digits : List Char) : Option Nat :=
  digits.foldlM (fun n c => (digit? base c).map fun d => base * n + d) 0

end LoopAudit.Radix
