import LoopAudit.Table
import LoopAudit.Text.Decimal

/-! Finite assignments of integers to names, and points. -/

namespace LoopAudit

abbrev Assignment := List (String × Int)

def Assignment.get? (values : Assignment) (name : String) : Option Int := values.lookup name

structure Point where
  coords : List (String × Int)
deriving DecidableEq, Repr

namespace Point

def get? (p : Point) (name : String) : Option Int := p.coords.lookup name

def text (p : Point) : String :=
  ", ".intercalate (p.coords.map fun c => c.1 ++ "=" ++ Decimal.text c.2)

def toAssignment (p : Point) : Assignment := Table.ofList p.coords

end Point

end LoopAudit
