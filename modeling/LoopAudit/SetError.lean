import LoopAudit.Word

/-! What can go wrong in the algebra of integer sets. -/

namespace LoopAudit

/-- `trap` is no report: a step that is not checked left the word range, and there is no answer. -/
inductive SetError where
  | overflow
  | trap
  | searchExhausted
  | unknownVariable (name : String)
  | splitLimit (limit : Nat)
  | duplicateName (name : String)
deriving DecidableEq, Repr

def stepBudget : Nat := 200000

namespace SetError

def message : SetError → String
  | overflow => "integer overflow in set arithmetic"
  | trap => "set arithmetic stopped at the end of the word range"
  | searchExhausted =>
    "sample-point search exhausted its budget of " ++ Nat.repr stepBudget ++ " steps"
  | unknownVariable name => "variable '" ++ name ++ "' is not part of the set's space"
  | splitLimit limit =>
    "exact projection would split into more than " ++ Nat.repr limit ++ " pieces"
  | duplicateName name => "name '" ++ name ++ "' is declared more than once in a space"

def code : SetError → String
  | overflow => "polyguard::set::overflow"
  | trap => "polyguard::set::trap"
  | searchExhausted => "polyguard::set::search_exhausted"
  | unknownVariable _ => "polyguard::set::unknown_variable"
  | splitLimit _ => "polyguard::set::split_limit"
  | duplicateName _ => "polyguard::set::duplicate_name"

def help : SetError → Option String
  | searchExhausted =>
    some "the set likely has large coefficients or an unbounded integer-infeasible region"
  | splitLimit _ => some "large strides or coefficients make the integer projection expensive"
  | _ => none

end SetError

def exact (x : Int) : Except SetError Int :=
  if Word.Fits x then .ok x else .error .overflow

theorem exact_eq_ok_iff {x y : Int} : exact x = .ok y ↔ Word.Fits x ∧ x = y := by
  unfold exact
  split <;> simp_all

/-- What a change in place comes to: the value as it stands afterwards, or the fault that stopped
the change. -/
def outcome {α : Type} : α × Option SetError → Except SetError α
  | (a, none) => .ok a
  | (_, some e) => .error e

theorem outcome_eq_ok_iff {α : Type} {a : α} {p : α × Option SetError} :
    outcome p = .ok a ↔ p = (a, none) := by
  obtain ⟨b, _ | e⟩ := p <;> simp [outcome]

theorem outcome_eq_error_iff {α : Type} {e : SetError} {p : α × Option SetError} :
    outcome p = .error e ↔ p.2 = some e := by
  obtain ⟨b, _ | e⟩ := p <;> simp [outcome]

def trapping (x : Int) : Except SetError Int :=
  if Word.Fits x then .ok x else .error .trap

theorem trapping_eq_ok_iff {x y : Int} : trapping x = .ok y ↔ Word.Fits x ∧ x = y := by
  unfold trapping
  split <;> simp_all

def commonDivisor (x y : Int) : Except SetError Int := do
  let a ← trapping x.natAbs
  let b ← trapping y.natAbs
  .ok (Int.gcd a b)

theorem commonDivisor_eq (x y : Int) : commonDivisor x y =
    if Word.Fits x.natAbs ∧ Word.Fits y.natAbs then .ok (Int.gcd x y) else .error .trap := by
  unfold commonDivisor trapping
  by_cases hx : Word.Fits x.natAbs
  · by_cases hy : Word.Fits y.natAbs
    · rw [if_pos hx, if_pos hy, if_pos (And.intro hx hy)]
      rfl
    · rw [if_pos hx, if_neg hy, if_neg (not_and_of_not_right _ hy)]
      rfl
  · rw [if_neg hx, if_neg (not_and_of_not_left _ hx)]
    rfl

end LoopAudit
