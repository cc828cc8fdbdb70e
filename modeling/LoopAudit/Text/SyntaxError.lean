/-! Faults of a text, with the place they point at. -/

namespace LoopAudit

structure Span where
  offset : Nat
  length : Nat
deriving DecidableEq, Repr

structure SyntaxError where
  reason : String
  span : Span
deriving DecidableEq, Repr

namespace SyntaxError

def message (e : SyntaxError) : String := "parse error: " ++ e.reason

def code : String := "polyguard::parse"

end SyntaxError

end LoopAudit
