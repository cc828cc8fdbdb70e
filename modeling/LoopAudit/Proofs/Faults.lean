import LoopAudit.Sample
import LoopAudit.Proofs.Fallible

/-! The errors of set arithmetic and of the search. Affine arithmetic fails by overflow only;
normalising, shadows and intervals can also stop at the end of the word range, and the search adds
its own exhaustion and nothing else. -/

namespace LoopAudit

open Fallible

abbrev Overflows {α : Type} (x : Except SetError α) : Prop := FailsOnly (· = .overflow) x

theorem exact_overflows {k : Int} : Overflows (exact k) := by
  unfold exact
  split
  · exact .ok
  · exact .error rfl

abbrev Overruns {α : Type} (x : Except SetError α) : Prop :=
  FailsOnly (fun e => e = .overflow ∨ e = .trap) x

theorem Overflows.overruns {α : Type} {x : Except SetError α} (h : Overflows x) : Overruns x :=
  h.mono fun _ => .inl

/-- Fails by leaving the word range in a step that is not checked. -/
abbrev Traps {α : Type} (x : Except SetError α) : Prop := FailsOnly (· = .trap) x

theorem Traps.overruns {α : Type} {x : Except SetError α} (h : Traps x) : Overruns x :=
  h.mono fun _ => .inr

theorem trapping_traps {k : Int} : Traps (trapping k) := by
  unfold trapping
  split
  · exact .ok
  · exact .error rfl

theorem trapping_overruns {k : Int} : Overruns (trapping k) := trapping_traps.overruns

theorem commonDivisor_traps {k l : Int} : Traps (commonDivisor k l) :=
  trapping_traps.bind fun _ => trapping_traps.bind fun _ => .ok

namespace Affine

variable {e f : Affine} {x : String} {k : Int}

theorem addTerm_overflows : Overflows (e.addTerm x k) := by
  rw [addTerm_eq]
  split
  · exact .ok
  · exact exact_overflows.bind fun _ => .ok

theorem addConstant_overflows : Overflows (e.addConstant k) := by
  rw [addConstant_eq]
  exact exact_overflows.bind fun _ => .ok

theorem add_overflows : Overflows (e.add f) :=
  FailsOnly.bind (.foldlM fun _ _ => addTerm_overflows) fun _ => addConstant_overflows

theorem scale_overflows : Overflows (e.scale k) := by
  unfold scale
  split
  · exact .ok
  · exact FailsOnly.bind (.mapM fun _ => exact_overflows.bind fun _ => .ok) fun _ =>
      exact_overflows.bind fun _ => .ok

theorem sub_overflows : Overflows (e.sub f) := scale_overflows.bind fun _ => add_overflows

theorem substitute_overflows : Overflows (e.substitute x f) := by
  unfold substitute
  simp only
  split
  · exact .ok
  · exact scale_overflows.bind fun _ => add_overflows

theorem content_traps : Traps e.content := .foldlM fun _ _ => commonDivisor_traps

theorem opposite_traps : Traps e.opposite :=
  FailsOnly.bind (.mapM fun _ => trapping_traps.bind fun _ => .ok) fun _ =>
    trapping_traps.bind fun _ => .ok

end Affine

namespace Constraint

theorem divisible_overflows {e : Affine} {m : Int} : Overflows (divisible e m) :=
  exact_overflows.bind fun _ => .ok

theorem substituteValue_overflows {c : Constraint} {x : String} {v : Int} :
    Overflows (c.substituteValue x v) :=
  Affine.substitute_overflows.bind fun _ => .ok

theorem normalize_traps {c : Constraint} : Traps c.normalize := by
  unfold normalize
  split
  · exact .ok
  · split
    · refine Affine.content_traps.bind fun _ => ?_
      simp only
      split
      · exact .ok
      · split
        · exact Affine.opposite_traps.bind fun _ => .ok
        · exact .ok
    · exact Affine.content_traps.bind fun _ => .ok
    · exact Affine.content_traps.bind fun _ => commonDivisor_traps.bind fun _ => .ok

end Constraint

namespace System

variable {s others : System} {e : Affine} {c : Constraint} {x : String}

theorem insert_overruns : Overruns (s.insert c) := by
  refine Constraint.normalize_traps.overruns.bind fun n => ?_
  cases n with
  | trivial | infeasible | proper d => exact .ok

theorem insertEach_overruns {α : Type} {f : α → Except SetError Constraint} {items : List α}
    (hf : ∀ a, Overflows (f a)) : Overruns (insertEach f s items) := by
  induction items generalizing s with
  | nil => exact .ok
  | cons a items ih =>
    refine (hf a).overruns.bind fun c => insert_overruns.bind fun o => ?_
    split
    · exact .ok
    · exact ih

theorem ofList?_overruns {cs : List Constraint} : Overruns (ofList? cs) :=
  insertEach_overruns fun _ => .ok

theorem cancel_overflows : Overflows (cancel e x c) := by
  unfold cancel
  simp only
  split
  · exact .ok
  · refine Affine.scale_overflows.bind fun _ => Affine.scale_overflows.bind fun _ =>
      Affine.sub_overflows.bind fun _ => ?_
    split
    · exact .ok
    · exact .ok
    · exact exact_overflows.bind fun _ => Constraint.divisible_overflows

theorem eliminateByEquality_overruns : Overruns (eliminateByEquality e others x) := by
  unfold eliminateByEquality
  simp only
  split
  · refine Affine.substitute_overflows.overruns.bind fun _ =>
      Constraint.divisible_overflows.overruns.bind fun _ => insert_overruns.bind fun _ => ?_
    split
    · exact .ok
    · exact insertEach_overruns fun _ => cancel_overflows
  · exact insertEach_overruns fun _ => cancel_overflows

theorem realPair_overflows {bounds : Affine × Affine} : Overflows (realPair x bounds) :=
  Affine.scale_overflows.bind fun _ => Affine.scale_overflows.bind fun _ =>
    Affine.add_overflows.bind fun _ => .ok

theorem shadow_overruns : Overruns (s.shadow x) := by
  unfold shadow
  split
  · exact eliminateByEquality_overruns
  · refine ofList?_overruns.bind fun _ => ?_
    split
    · exact .ok
    · exact insertEach_overruns fun _ => realPair_overflows

end System

namespace Sample

variable {s : System} {x : String} {i : Interval}

theorem shadowOf_overruns {later : List String} : Overruns (shadowOf s later) := by
  induction later generalizing s with
  | nil => exact .ok
  | cons x later ih =>
    unfold shadowOf
    split
    · refine System.shadow_overruns.bind fun o => ?_
      split
      · exact .ok
      · exact ih
    · exact ih

theorem ceilDiv_overruns {p q : Int} : Overruns (ceilDiv p q) :=
  trapping_overruns.bind fun _ => trapping_overruns

theorem narrow_overruns {c : Constraint} : Overruns (narrow x i c) := by
  unfold narrow
  simp only
  split
  · exact .ok
  · split
    · split
      · exact .ok
      · exact trapping_overruns.bind fun _ => trapping_overruns.bind fun _ => .ok
    · split
      · exact trapping_overruns.bind fun _ => ceilDiv_overruns.bind fun _ => .ok
      · exact trapping_overruns.bind fun _ => trapping_overruns.bind fun _ => .ok
    · exact .ok

theorem narrowBy_overruns : Overruns (narrowBy x i s) := by
  induction s generalizing i with
  | nil => exact .ok
  | cons c s ih =>
    refine narrow_overruns.bind fun o => ?_
    split
    · exact .ok
    · exact ih

theorem intervalOf_overruns {later : List String} : Overruns (intervalOf s x later) := by
  refine shadowOf_overruns.bind fun o => ?_
  split
  · exact .ok
  · refine narrowBy_overruns.bind fun o => ?_
    split
    · exact .ok
    · exact .ok

abbrev Exhausts {α : Type} (x : Except SetError α) : Prop :=
  FailsOnly (fun e => e = .searchExhausted ∨ e = .overflow ∨ e = .trap) x

theorem Candidates.look_overruns {c : Candidates} : Overruns c.look := by
  unfold look
  split
  · exact .ok
  · split
    · exact .ok
    · exact trapping_overruns.bind fun _ => .ok

theorem Candidates.nextWithin_overruns {n : Nat} {c : Candidates} :
    Overruns (c.nextWithin n) := by
  induction n generalizing c with
  | zero => exact .error (.inr rfl)
  | succ n ih =>
    unfold nextWithin
    split
    · exact .ok
    · refine FailsOnly.bind (look_overruns.bind fun _ => .ok) fun r => ?_
      split
      · exact .ok
      · exact ih

theorem tryCandidates_exhausts
    {step : Int → Progress → Except SetError (Option (List Int) × Progress)} {n : Nat}
    {c : Candidates} {p : Progress} (hstep : ∀ v p, Exhausts (step v p)) :
    Exhausts (tryCandidates step n c p) := by
  induction n generalizing c p with
  | zero => exact .ok
  | succ n ih =>
    refine (Candidates.nextWithin_overruns.mono fun _ => .inr).bind fun r => ?_
    split
    · exact .ok
    · refine (hstep _ p).bind fun r => ?_
      split
      · exact .ok
      · exact ih

theorem solve_exhausts {names : List String} {p : Progress} : Exhausts (solve names s p) := by
  have htick {p : Progress} : Exhausts p.tick := by
    unfold Progress.tick
    split
    · exact .ok
    · exact .error (.inl rfl)
  induction names generalizing s p with
  | nil => exact htick.bind fun _ => .ok
  | cons x later ih =>
    refine htick.bind fun p => (intervalOf_overruns.mono fun _ => .inr).bind fun o => ?_
    split
    · exact .ok
    · refine FailsOnly.bind (tryCandidates_exhausts fun v p => ?_) fun r => ?_
      · refine FailsOnly.bind (FailsOnly.mono ?_ fun _ => .inr) fun o => ?_
        · exact System.insertEach_overruns fun _ => Constraint.substituteValue_overflows
        · split
          · exact .ok
          · exact ih
      · split
        · exact .ok
        · exact .ok

theorem find_exhausts {space : Space} : Exhausts (find space s) := by
  refine solve_exhausts.bind fun r => ?_
  split
  · exact .ok
  · split
    · exact .error (.inl rfl)
    · exact .ok

end Sample

end LoopAudit
