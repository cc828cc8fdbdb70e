import LoopAudit.Constraint

/-! Systems: lists of normalised constraints, read as a conjunction. A system holds at most one of
several parallel constraints, the tightest, at the place of the first. -/

namespace LoopAudit

abbrev System := List Constraint

namespace System

def Holds (s : System) (ρ : String → Int) : Prop := ∀ c ∈ s, c.Holds ρ

def mentions (s : System) (x : String) : Bool := s.any fun c => c.form.mentions x

/-- Joins a normalised constraint with the first one parallel to it, or appends it. Parallel
equalities and congruences must agree. -/
def merge (c : Constraint) : System → Option System
  | [] => some [c]
  | d :: s =>
    if d.parallel c then
      match c.relation with
      | .ge => some ((if c.form.constant < d.form.constant then c else d) :: s)
      | _ => if d.form.constant = c.form.constant then some (d :: s) else none
    else (merge c s).map (d :: ·)

def insert (s : System) (c : Constraint) : Except SetError (Option System) := do
  match ← c.normalize with
  | .trivial => .ok (some s)
  | .infeasible => .ok none
  | .proper d => .ok (s.merge d)

def insertEach {α : Type} (f : α → Except SetError Constraint) :
    System → List α → Except SetError (Option System)
  | s, [] => .ok (some s)
  | s, a :: items => do
    match ← s.insert (← f a) with
    | none => .ok none
    | some t => insertEach f t items

def ofList? (cs : List Constraint) : Except SetError (Option System) := insertEach .ok [] cs

def assign (s : System) (x : String) (v : Int) : Except SetError (Option System) :=
  insertEach (fun c => c.substituteValue x v) [] s

end System

end LoopAudit
