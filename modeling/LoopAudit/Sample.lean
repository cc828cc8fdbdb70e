import LoopAudit.Space
import LoopAudit.System.Elimination

/-! Search for an integer point of a system. Variables are fixed one at a time; the interval of the
next one is read off the shadow that eliminates the later ones, and its values are tried nearest to
zero first. A search that left values untried and found nothing is an error, never an answer. -/

namespace LoopAudit.Sample

structure Interval where
  lo : Option Int
  hi : Option Int
deriving DecidableEq, Repr

namespace Interval

def all : Interval := ⟨none, none⟩

def Mem (v : Int) (i : Interval) : Prop := (∀ l ∈ i.lo, l ≤ v) ∧ ∀ h ∈ i.hi, v ≤ h

def contains (i : Interval) (v : Int) : Bool := i.lo.all (· ≤ v) && i.hi.all (v ≤ ·)

def raise (i : Interval) (x : Int) : Interval := { i with lo := some (i.lo.elim x (max x)) }

def lower (i : Interval) (x : Int) : Interval := { i with hi := some (i.hi.elim x (min x)) }

def isEmpty (i : Interval) : Bool :=
  match i.lo, i.hi with
  | some l, some h => decide (h < l)
  | _, _ => false

def nearest (i : Interval) : Int :=
  let v := i.lo.elim 0 (max 0)
  i.hi.elim v (min v)

end Interval

def maxCandidates : Nat := 64

/-- The values of an interval on their way to the search: the one nearest to zero comes first, then
they go away from it, upward and downward in turn. -/
structure Candidates where
  interval : Interval
  start : Int
  emitted : Nat
  offset : Int
  upward : Bool
deriving DecidableEq, Repr

namespace Candidates

def ofInterval (i : Interval) : Candidates := ⟨i, i.nearest, 0, 0, true⟩

def isSpent (c : Candidates) : Bool :=
  decide (0 < c.offset) && c.interval.hi.any (· < Word.saturate (c.start + c.offset)) &&
    c.interval.lo.any (Word.saturate (c.start - c.offset) < ·)

def isOver (c : Candidates) : Bool := decide (maxCandidates ≤ c.emitted) || c.isSpent

/-- The value to look at, if it is a word, and what comes after it. A distance outside the word
range stops the search. -/
def look (c : Candidates) : Except SetError (Option Int × Candidates) :=
  if c.offset = 0 then .ok (some c.start, { c with offset := 1 })
  else if c.upward then .ok (Word.checked (c.start + c.offset), { c with upward := false })
  else do
    let offset ← trapping (c.offset + 1)
    .ok (Word.checked (c.start - c.offset), { c with offset, upward := true })

def turn (c : Candidates) : Except SetError (Option Int × Candidates) := do
  let (v, c) ← c.look
  .ok (if v.any c.interval.contains then (v, { c with emitted := c.emitted + 1 }) else (none, c))

def nextWithin : Nat → Candidates → Except SetError (Option Int × Candidates)
  | 0, _ => .error .trap
  | n + 1, c =>
    if c.isOver then .ok (none, c)
    else do
      match ← c.turn with
      | (some v, c) => .ok (some v, c)
      | (none, c) => nextWithin n c

/-- The next value of the interval, or `none` at the end. Two turns take one more step away from the
start, so that `2 ^ 64` of them lead out of the word range. -/
def next (c : Candidates) : Except SetError (Option Int × Candidates) :=
  c.nextWithin 18446744073709551616

end Candidates

def isExhaustive (i : Interval) : Bool :=
  match i.lo, i.hi with
  | some l, some h => decide (h - l < maxCandidates)
  | _, _ => false

def shadowOf : System → List String → Except SetError (Option System)
  | s, [] => .ok (some s)
  | s, x :: xs =>
    if s.mentions x then do
      match ← s.shadow x with
      | none => .ok none
      | some t => shadowOf t xs
    else shadowOf s xs

def ceilDiv (p q : Int) : Except SetError Int := do trapping (-((← trapping (-p)) / q))

def narrow (x : String) (i : Interval) (c : Constraint) : Except SetError (Option Interval) :=
  let a := c.form.coeff x
  let k := c.form.constant
  if a = 0 then .ok (some i)
  else
    match c.relation with
    | .eq =>
      if k % a ≠ 0 then .ok none
      else do
        let v ← trapping ((← trapping (-k)) / a)
        .ok (some ((i.raise v).lower v))
    | .ge =>
      if 0 < a then do .ok (some (i.raise (← ceilDiv (← trapping (-k)) a)))
      else do .ok (some (i.lower (← trapping (k / (← trapping (-a))))))
    | .mod _ => .ok (some i)

def narrowBy (x : String) : Interval → System → Except SetError (Option Interval)
  | i, [] => .ok (some i)
  | i, c :: s => do
    match ← narrow x i c with
    | none => .ok none
    | some j => narrowBy x j s

/-- The interval of `x` in the shadow that eliminates `later`; `none` when the shadow is empty. -/
def intervalOf (s : System) (x : String) (later : List String) :
    Except SetError (Option Interval) := do
  match ← shadowOf s later with
  | none => .ok none
  | some t =>
    match ← narrowBy x Interval.all t with
    | none => .ok none
    | some i => .ok (if i.isEmpty then none else some i)

structure Progress where
  steps : Nat
  truncated : Bool
deriving DecidableEq, Repr

def Progress.start : Progress := ⟨0, false⟩

def Progress.tick (p : Progress) : Except SetError Progress :=
  if p.steps < stepBudget then .ok { p with steps := p.steps + 1 } else .error .searchExhausted

def tryCandidates (step : Int → Progress → Except SetError (Option (List Int) × Progress)) :
    Nat → Candidates → Progress → Except SetError (Option (List Int) × Progress)
  | 0, _, p => .ok (none, p)
  | n + 1, c, p => do
    match ← c.next with
    | (none, _) => .ok (none, p)
    | (some v, c) =>
      match ← step v p with
      | (some later, p) => .ok (some (v :: later), p)
      | (none, p) => tryCandidates step n c p

def attempt (later : System → Progress → Except SetError (Option (List Int) × Progress))
    (s : System) (x : String) (v : Int) (p : Progress) :
    Except SetError (Option (List Int) × Progress) := do
  match ← s.assign x v with
  | none => .ok (none, p)
  | some t => later t p

def solve : List String → System → Progress → Except SetError (Option (List Int) × Progress)
  | [], s, p => do
    let p ← p.tick
    .ok (if s.all fun c => c.form.isConstant then some [] else none, p)
  | x :: later, s, p => do
    let p ← p.tick
    match ← intervalOf s x later with
    | none => .ok (none, p)
    | some i =>
      match ← tryCandidates (attempt (solve later) s x) maxCandidates (.ofInterval i) p with
      | (some values, p) => .ok (some values, p)
      | (none, p) => .ok (none, { p with truncated := p.truncated || !isExhaustive i })

def find (space : Space) (s : System) : Except SetError (Option Point) := do
  match ← solve space.names s .start with
  | (some values, _) => .ok (some ⟨space.names.zip values⟩)
  | (none, p) => if p.truncated then .error .searchExhausted else .ok none

end LoopAudit.Sample
