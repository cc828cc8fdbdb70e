import LoopAudit.Text.Blank
import LoopAudit.Text.Decimal

/-! Values of kernel parameters, as `name=value`. -/

namespace LoopAudit.Parameter

inductive Fault where
  | noValue (src : String)
  | noName (src : String)
  | badValue (name : String) (reason : Decimal.Malformed)
deriving DecidableEq, Repr

def Fault.message : Fault → String
  | .noValue src => "expected NAME=VALUE, got '" ++ src ++ "'"
  | .noName src => "missing parameter name in '" ++ src ++ "'"
  | .badValue name reason => "bad value for '" ++ name ++ "': " ++ reason.message

def parse (src : String) : Except Fault (String × Int) :=
  match Text.splitAt? '=' src.toList with
  | none => .error (.noValue src)
  | some (left, right) =>
    let name := String.ofList (Text.trim left)
    if name.isEmpty then .error (.noName src)
    else
      match Decimal.readWord (Text.trim right) with
      | .ok n => .ok (name, n)
      | .error reason => .error (.badValue name reason)

end LoopAudit.Parameter
