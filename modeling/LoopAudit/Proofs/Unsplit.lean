import LoopAudit.Proofs.Placement
import LoopAudit.Proofs.Shadow

/-! Elimination that keeps every piece whole. A name that passes the test is eliminated from a piece
by its shadow, so that one piece leaves at most one and the limit on splitting is never met. The
range of subscripts eliminates such names only, and has no more pieces than the domain. -/

namespace LoopAudit

open Fallible

namespace System

variable {V : String → Prop} {s : System} {x : String}

def KeepsWhole (x : String) (s : System) : Prop :=
  (∃ c ∈ s, c.relation = .eq ∧ x ∈ c.form.vars) ∨ BoundsOnly x s ∧ UnitPairs x s

theorem BoundsOnly.period_eq (hbounds : BoundsOnly x s) (hs : ∀ c ∈ s, c.WellFormed V) :
    s.period x = .ok 1 := by
  unfold period
  induction s with
  | nil => rfl
  | cons c s ih =>
    obtain ⟨hc, hs⟩ := List.forall_mem_cons.mp hs
    obtain ⟨hbound, hbounds⟩ := List.forall_mem_cons.mp hbounds
    have hstep : joinPeriod x 1 c = .ok 1 := by
      unfold joinPeriod
      split
      · next m hm =>
        refine if_neg fun hx => ?_
        have hr := hbound (hc.form.canonical.mem_vars_iff.mp (Affine.mentions_iff.mp hx))
        rw [hm] at hr
        cases hr
      · rfl
    rw [List.foldlM_cons, hstep]
    exact ih hbounds hs

theorem eliminate_eq_shadow (hwhole : KeepsWhole x s) (hs : ∀ c ∈ s, c.WellFormed V)
    (hx : s.mentions x = true) : s.eliminate x = Option.toList <$> s.shadow x := by
  rw [eliminate, if_neg (by simp [hx]), shadow]
  cases hpivot : s.pivot? x with
  | some p =>
    simp only
    cases eliminateByEquality p.1 p.2 x <;> rfl
  | none =>
    obtain ⟨c, hc, hr, hmem⟩ | ⟨hbounds, hunit⟩ := hwhole
    · exact absurd hmem (pivot?_eq_none hpivot c hc hr)
    have hall : ((s.lowerBounds x).all fun l =>
        (s.upperBounds x).all fun u => l.coeff x == 1 || u.coeff x == -1) = true := by
      simp only [List.all_eq_true, Bool.or_eq_true, beq_iff_eq]
      intro l hl u hu
      exact (hunit.bounds l hl u hu).imp_right neg_eq_iff_eq_neg.mp
    simp only [hbounds.period_eq hs]
    change s.eliminateBounds x = _
    rw [eliminateBounds]
    obtain e | _ | rest := ofList? (s.free x)
    · rfl
    · rfl
    · simp only [hall, if_true, bind, Except.bind]
      cases insertEach (realPair x) rest (pairs (s.lowerBounds x) (s.upperBounds x)) <;> rfl

end System

structure Unsplit {α : Type} (r : Except SetError (List α)) : Prop where
  overruns : Overruns r
  length_le : ∀ l, r = .ok l → l.length ≤ 1

namespace Unsplit

variable {α β : Type} {r : Except SetError (List α)}

theorem ok {l : List α} (h : l.length ≤ 1) : Unsplit (.ok l) := by
  refine ⟨.ok, ?_⟩
  rintro _ ⟨⟩
  exact h

theorem toList {r : Except SetError (Option α)} (h : Overruns r) :
    Unsplit (Option.toList <$> r) := by
  refine ⟨h.map, fun l hl => ?_⟩
  obtain ⟨o, -, rfl⟩ := map_eq_ok.mp hl
  cases o <;> simp

theorem bind {f : List α → Except SetError (List β)} (hr : Unsplit r)
    (hf : ∀ l, l.length ≤ 1 → Unsplit (f l)) : Unsplit (r >>= f) := by
  refine ⟨hr.overruns.bind_of_ok fun l hl => (hf l (hr.length_le l hl)).overruns, fun m hm => ?_⟩
  obtain ⟨l, hl, hm⟩ := bind_eq_ok.mp hm
  exact (hf l (hr.length_le l hl)).length_le m hm

end Unsplit

namespace Conjunction

variable {b : Conjunction} {x : String}

theorem eliminate_unsplit {V : String → Prop} {s : System} (hwhole : s.KeepsWhole x)
    (hs : ∀ c ∈ s, c.WellFormed V) : Unsplit (s.eliminate x) := by
  by_cases hx : s.mentions x = true
  · rw [System.eliminate_eq_shadow hwhole hs hx]
    exact .toList System.shadow_overruns
  · rw [System.eliminate, if_pos (by simp [hx])]
    exact .ok le_rfl

theorem eliminateFrom_unsplit {V : String → Prop} {s : System} (hwhole : s.KeepsWhole x)
    (hs : ∀ c ∈ s, c.WellFormed V) : Unsplit (eliminateFrom [s] x) := by
  have hfold : eliminateFrom [s] x = (do
      let found ← s.eliminate x
      if System.maxSplits < found.length then .error (.splitLimit System.maxSplits)
      else .ok found) := by
    rw [eliminateFrom, List.foldlM_cons]
    cases s.eliminate x with
    | error e => rfl
    | ok found =>
      simp only [List.nil_append, List.foldlM_nil]
      change (if _ then _ else _) >>= _ = if _ then _ else _
      split <;> rfl
  rw [hfold]
  refine (eliminate_unsplit hwhole hs).bind fun found hfound => ?_
  rw [if_neg (not_lt.mpr (hfound.trans (by decide)))]
  exact .ok hfound

theorem projectOut_unsplit (hb : b.WellFormed) (hwhole : System.KeepsWhole x b.constraints) :
    Unsplit (b.projectOut [x]) := by
  unfold projectOut
  split_ifs
  · exact .ok (Nat.zero_le _)
  · have hnames : Names.ofList [x] = [x] := rfl
    have heliminated : Unsplit (((Names.ofList [x]).filter b.space.contains).foldlM
        eliminateFrom [b.constraints]) := by
      rw [hnames, List.filter_cons]
      split
      · have hone := eliminateFrom_unsplit hwhole hb.system.each
        simpa using hone
      · exact .ok le_rfl
    exact heliminated.bind fun found hfound => .ok (by rwa [List.length_map])

end Conjunction

namespace IntegerSet

variable {s t u : IntegerSet} {b : Conjunction} {bs : List Conjunction} {c : Constraint}

theorem length_addPiece (h : s.addPiece b = .ok t) : t.pieces.length ≤ s.pieces.length + 1 := by
  unfold addPiece at h
  split_ifs at h
  · cases h
    exact Nat.le_succ _
  · obtain ⟨_, -, h⟩ := bind_eq_ok.mp h
    cases h
    simp

theorem length_addPieces (h : s.addPieces bs = .ok t) :
    t.pieces.length ≤ s.pieces.length + bs.length :=
  foldlM_size_le (n := fun s => s.pieces.length) (fun _ _ _ _ => length_addPiece) h

theorem length_projectOut {names : List String}
    (hpieces : ∀ p ∈ s.pieces, Unsplit (p.projectOut names)) (h : s.projectOut names = .ok t) :
    t.pieces.length ≤ s.pieces.length := by
  refine (foldlM_size_le (n := fun s => s.pieces.length) (fun u p u' hp hu => ?_) h).trans
    (Nat.zero_add _).le
  obtain ⟨found, hfound, hu⟩ := bind_eq_ok.mp hu
  have hone := (hpieces p hp).length_le found hfound
  exact (length_addPieces hu).trans (Nat.add_le_add_left hone _)

theorem length_intersect_univ {space : Space} (h : (univ space).intersect s = .ok t) :
    t.pieces.length ≤ s.pieces.length := by
  refine (foldlM_size_le (n := fun s => s.pieces.length) (fun u p u' _ hu => ?_) h).trans ?_
  · obtain ⟨_, -, hu⟩ := bind_eq_ok.mp hu
    exact length_addPiece hu
  · simp [univ, empty]

theorem length_addConstraint (h : s.addConstraint c = .ok t) :
    t.pieces.length ≤ s.pieces.length := by
  rw [addConstraint_eq] at h
  obtain ⟨pieces, hpieces, rfl⟩ := map_eq_ok.mp h
  rw [(mapM_eq_ok.mp hpieces).length_eq]
  exact List.length_filter_le ..

theorem length_addConstraints {cs : List Constraint} (h : cs.foldlM addConstraint s = .ok t) :
    t.pieces.length ≤ s.pieces.length :=
  Fallible.foldlM_invariant (I := fun t => t.pieces.length ≤ s.pieces.length)
    (fun _ _ _ _ ht h => (length_addConstraint h).trans ht) le_rfl h

end IntegerSet

namespace Expr

variable {s t domain range : IntegerSet} {x : String} {index : List Expr}

/-- The test answers what elimination needs: an equality with a unit coefficient can be solved for
the name, and bounds that have unit coefficients on one side have a unit side in every pair. -/
theorem keepsWhole_spec {b : Conjunction} (hb : b.WellFormed) (h : keepsWhole x b = true) :
    System.KeepsWhole x b.constraints := by
  unfold keepsWhole at h
  simp only at h
  split_ifs at h with hequality hother
  · obtain ⟨c, hc, htest⟩ := List.any_eq_true.mp hequality
    rw [Bool.and_eq_true, beq_iff_eq] at htest
    obtain ⟨hr, hunit⟩ := htest
    refine .inl ⟨c, hc, beq_iff_eq.mp hr, ?_⟩
    rw [(hb.constraint hc).form.canonical.mem_vars_iff]
    rintro hzero
    rw [hzero] at hunit
    cases hunit
  · refine .inr ⟨fun c hc hx => ?_, fun c hc d hd _ _ hpos hneg => ?_⟩
    · by_contra hr
      exact hother (List.any_eq_true.mpr ⟨c, hc, by simp [hr, hx]⟩)
    · simp only [Bool.or_eq_true, List.all_eq_true, List.mem_map, forall_exists_index, and_imp,
        forall_apply_eq_imp_iff₂, decide_eq_true_eq] at h
      rcases h with h | h
      · have hle := h c hc
        exact .inl (by omega)
      · have hge := h d hd
        exact .inr (by omega)

theorem projectOut_unsplit (hs : s.WellFormed) (hx : exactToEliminate s x = true) :
    ∀ p ∈ s.pieces, Unsplit (p.projectOut [x]) := by
  intro p hp
  obtain ⟨hwf, -⟩ := hs.pieces p hp
  exact Conjunction.projectOut_unsplit hwf (keepsWhole_spec hwf (List.all_eq_true.mp hx p hp))

theorem projectOut_overruns (hs : s.WellFormed) (hx : exactToEliminate s x = true) :
    Overruns (s.projectOut [x]) :=
  IntegerSet.projectOut_fails hs fun p hp => (projectOut_unsplit hs hx p hp).overruns

theorem eliminateExact_overruns {n : Nat} {pending : List String} (hs : s.WellFormed) :
    Overruns (eliminateExact n s pending) := by
  induction n generalizing s pending with
  | zero => exact .ok
  | succ n ih =>
    unfold eliminateExact
    split
    · exact .ok
    · next x hx =>
      refine (projectOut_overruns hs (List.find?_some hx)).bind_of_ok fun t ht => ?_
      exact ih (IntegerSet.projectOut_spec hs ht).1

theorem length_eliminateExact {n : Nat} {pending : List String} (hs : s.WellFormed)
    (h : eliminateExact n s pending = .ok t) : t.pieces.length ≤ s.pieces.length := by
  induction n generalizing s pending with
  | zero =>
    cases h
    exact le_rfl
  | succ n ih =>
    unfold eliminateExact at h
    split at h
    · cases h
      exact le_rfl
    · next x hx =>
      obtain ⟨u, hu, h⟩ := bind_eq_ok.mp h
      have hunsplit := projectOut_unsplit hs (List.find?_some hx)
      exact (ih (IntegerSet.projectOut_spec hs hu).1 h).trans
        (IntegerSet.length_projectOut hunsplit hu)

theorem length_accessRange (hd : domain.WellFormed)
    (h : accessRange domain index = .ok (some range)) :
    range.pieces.length ≤ domain.pieces.length := by
  obtain ⟨o, ho, h⟩ := bind_eq_ok.mp h
  cases o with
  | none => cases h
  | some p =>
    obtain ⟨found, state⟩ := p
    simp only [bind_eq_ok, map_eq_ok] at h
    obtain ⟨lifted, hlifted, start, hstart, s, hs, t, ht, h⟩ := h
    cases h
    have hax := lowerIndices_spec Lowering.Sound.start ho
    obtain ⟨rfl, hdistinct⟩ := Space.ofNames_eq_ok hlifted
    have hswf := (IntegerSet.intersect_spec (.univ hdistinct) hd hstart).1
    have hwf := (IntegerSet.addConstraints_spec (V := (· ∈ state.taken)) hswf
      (List.forall_mem_append.mpr
        ⟨List.forall_mem_map.mpr hax.constraints, hax.sound.constraints⟩) hs).1
    calc range.pieces.length
        ≤ s.pieces.length := length_eliminateExact hwf ht
      _ ≤ start.pieces.length := IntegerSet.length_addConstraints hs
      _ ≤ domain.pieces.length := IntegerSet.length_intersect_univ hstart

def comb : IntegerSet :=
  ⟨⟨[], ["i", "j"]⟩,
    [⟨⟨[], ["i", "j"]⟩, [.eq ⟨[("i", 1), ("j", -2)], 0⟩, ⟨.mod 3, ⟨[("i", 1)], 0⟩⟩], false⟩,
      ⟨⟨[], ["i", "j"]⟩, [.ge ⟨[("i", 3), ("j", -1)], 0⟩, .ge ⟨[("i", -1), ("j", 2)], 5⟩], false⟩]⟩

end Expr

end LoopAudit
