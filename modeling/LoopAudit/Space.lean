import LoopAudit.SetError
import LoopAudit.Names

/-! The named parameters and dimensions of a set. Two spaces are aligned by joining their names; a
name that is a dimension on either side is a dimension of the joint space, which is how a domain
nested under another sees the outer loop variables. -/

namespace LoopAudit

structure Space where
  params : List String
  dims : List String
deriving DecidableEq, Repr

namespace Space

def empty : Space := ⟨[], []⟩

def names (s : Space) : List String := s.params ++ s.dims

def Distinct (s : Space) : Prop := s.names.Nodup

instance (s : Space) : Decidable s.Distinct := inferInstanceAs (Decidable s.names.Nodup)

def ofNames (params dims : List String) : Except SetError Space :=
  match Names.firstRepeated? [] (params ++ dims) with
  | some x => .error (.duplicateName x)
  | none => .ok ⟨params, dims⟩

def isParam (s : Space) (x : String) : Bool := s.params.contains x

def isDim (s : Space) (x : String) : Bool := s.dims.contains x

def contains (s : Space) (x : String) : Bool := s.isParam x || s.isDim x

def align (s t : Space) : Space :=
  let dims := Names.extend s.dims t.dims
  ⟨Names.extend [] ((s.params ++ t.params).filter fun p => !dims.contains p), dims⟩

def without (s : Space) (names : List String) : Space :=
  ⟨s.params.filter fun p => !names.contains p, s.dims.filter fun d => !names.contains d⟩

def withDim (s : Space) (x : String) : Except SetError Space :=
  if s.contains x then .error (.duplicateName x) else .ok { s with dims := s.dims ++ [x] }

def paramsText (s : Space) : String :=
  if s.params.isEmpty then "" else "[" ++ ", ".intercalate s.params ++ "] -> "

def text (s : Space) : String := s.paramsText ++ "[" ++ ", ".intercalate s.dims ++ "]"

end Space

end LoopAudit
