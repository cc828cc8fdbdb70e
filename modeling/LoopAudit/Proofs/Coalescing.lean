import LoopAudit.Proofs.SetAlgebra
import Mathlib.Order.Preorder.Finite

/-! Simplifying a set keeps its points: a dropped constraint follows from the others, and a dropped
piece lies inside a piece that stays. -/

namespace LoopAudit

open Fallible

variable {V : String → Prop} {a b p : Conjunction} {c d : Constraint}
  {cs kept out : List Constraint}
  {bs pieces : List Conjunction} {space : Space} {v : Bool} {ρ : String → Int}

theorem System.WellFormed.sublist {s t : System} (ht : t.WellFormed V) (h : s.Sublist t) :
    s.WellFormed V :=
  ⟨fun c hc => ht.normal c (h.subset hc), List.Pairwise.sublist h ht.apart⟩

namespace Conjunction

def Inside (a b : Conjunction) : Prop := ∀ ρ, a.Holds ρ → b.Holds ρ

section Difference

theorem nonemptyWith_nonempty (hb : b.WellFormed) (hcs : ∀ d ∈ cs, d.WellFormed V)
    (h : b.nonemptyWith cs = .ok pieces) : ∀ p ∈ pieces, ∃ ρ, p.Holds ρ := by
  induction cs generalizing pieces with
  | nil =>
    cases h
    nofun
  | cons d cs ih =>
    obtain ⟨hd, hcs⟩ := List.forall_mem_cons.mp hcs
    simp only [nonemptyWith, bind_eq_ok] at h
    obtain ⟨piece, hpiece, empty, hempty, rest, hrest, h⟩ := h
    have hwf := (addConstraint_spec hb hd hpiece).1
    cases h
    cases empty with
    | true => exact ih hcs hrest
    | false =>
      have hnot : ¬ ∀ ρ, ¬ piece.Holds ρ := fun hall =>
        Bool.false_ne_true ((isEmpty_spec hwf hempty).mpr hall)
      exact List.forall_mem_cons.mpr ⟨not_forall_not.mp hnot, ih hcs hrest⟩

theorem violations_nonempty (ha : a.WellFormed) (hcs : ∀ d ∈ cs, d.WellFormed V)
    (h : a.violations cs = .ok pieces) : ∀ p ∈ pieces, ∃ ρ, p.Holds ρ := by
  induction cs generalizing a pieces with
  | nil =>
    cases h
    nofun
  | cons d cs ih =>
    obtain ⟨hd, hcs⟩ := List.forall_mem_cons.mp hcs
    unfold violations at h
    split_ifs at h with hcontra
    · cases h
      nofun
    · simp only [bind_eq_ok] at h
      obtain ⟨alternatives, halt, found, hfound, a', ha', rest, hrest, h⟩ := h
      cases h
      have halts := (Constraint.negate_spec hd halt).1
      have hwf' := (addConstraint_spec ha hd ha').1
      exact List.forall_mem_append.mpr
        ⟨nonemptyWith_nonempty ha halts hfound, ih hwf' hcs hrest⟩

theorem subtract_nonempty (ha : a.WellFormed) (hb : b.WellFormed)
    (hfeasible : b.isContradictory = false) (h : a.subtract b = .ok pieces) :
    ∀ p ∈ pieces, ∃ ρ, p.Holds ρ := by
  obtain ⟨acc, hacc, h⟩ := bind_eq_ok.mp h
  have hwf := (rehome_spec ha ha.distinct.align hacc).1
  rw [hfeasible] at h
  exact violations_nonempty hwf (fun d hd => (hb.constraint hd).toWellFormed) h

theorem subtract_isEmpty_iff (ha : a.WellFormed) (hb : b.WellFormed)
    (hfeasible : b.isContradictory = false) (h : a.subtract b = .ok pieces) :
    pieces.isEmpty = true ↔ a.Inside b := by
  have hiff := (subtract_spec ha hb h).2
  rw [List.isEmpty_iff]
  constructor
  · rintro rfl ρ hρ
    by_contra hnot
    obtain ⟨p, hp, -⟩ := (hiff ρ).mpr ⟨hρ, hnot⟩
    cases hp
  · intro hinside
    refine List.eq_nil_iff_forall_not_mem.mpr fun p hp => ?_
    obtain ⟨ρ, hρ⟩ := subtract_nonempty ha hb hfeasible h p hp
    obtain ⟨haρ, hbρ⟩ := (hiff ρ).mp ⟨p, hp, hρ⟩
    exact hbρ (hinside ρ haρ)

end Difference

section Redundancy

theorem excludesAll_spec (hb : b.WellFormed) (hcs : ∀ d ∈ cs, d.WellFormed V)
    (h : b.excludesAll cs = .ok v) :
    v = true ↔ ∀ ρ, b.Holds ρ → ¬ ∃ d ∈ cs, d.Holds ρ := by
  induction cs with
  | nil =>
    cases h
    simp
  | cons d cs ih =>
    obtain ⟨hd, hcs⟩ := List.forall_mem_cons.mp hcs
    simp only [excludesAll, bind_eq_ok] at h
    obtain ⟨with_d, hwith, empty, hempty, h⟩ := h
    obtain ⟨hwf, -, hholds⟩ := addConstraint_spec hb hd hwith
    have hdecides := isEmpty_spec hwf hempty
    simp only [hholds, not_and] at hdecides
    simp only [List.exists_mem_cons_iff, not_or]
    cases empty with
    | true =>
      rw [ih hcs h]
      have hfree := hdecides.mp rfl
      exact ⟨fun hrest ρ hρ => ⟨fun hdρ => hfree ρ hdρ hρ, hrest ρ hρ⟩,
        fun hall ρ hρ => (hall ρ hρ).2⟩
    | false =>
      cases h
      refine iff_of_false Bool.false_ne_true fun hall => Bool.false_ne_true (hdecides.mpr ?_)
      exact fun ρ hdρ hρ => (hall ρ hρ).1 hdρ

theorem irredundant_cons (hspace : space.Distinct)
    (hs : System.WellFormed (· ∈ space.names) (kept ++ c :: cs))
    (h : irredundant space kept (c :: cs) = .ok out) :
    (∀ ρ, System.Holds (kept ++ cs) ρ → c.Holds ρ) ∧ irredundant space kept cs = .ok out ∨
      (∃ ρ, System.Holds (kept ++ cs) ρ ∧ ¬ c.Holds ρ) ∧
        irredundant space (kept ++ [c]) cs = .ok out := by
  simp only [irredundant, bind_eq_ok] at h
  obtain ⟨alternatives, halt, excluded, hexcluded, h⟩ := h
  have hothers : WellFormed ⟨space, kept ++ cs, false⟩ :=
    ⟨hspace, hs.sublist ((List.sublist_cons_self c cs).append_left kept), by simp⟩
  have hc := (hs.normal c (by simp)).toWellFormed
  obtain ⟨halts, hnegates⟩ := Constraint.negate_spec hc halt
  -- Wherever the other constraints hold, no alternative of the negation does.
  have hexcludes : excluded = true ↔ ∀ ρ, System.Holds (kept ++ cs) ρ → c.Holds ρ := by
    rw [excludesAll_spec hothers halts hexcluded]
    refine forall_congr' fun ρ => ?_
    rw [hnegates, not_not]
    simp [Holds]
  cases excluded with
  | true => exact .inl ⟨hexcludes.mp rfl, h⟩
  | false =>
    refine .inr ⟨?_, h⟩
    have hnot := mt hexcludes.mpr Bool.false_ne_true
    simpa only [not_forall, exists_prop] using hnot

theorem irredundant_holds (hspace : space.Distinct)
    (hs : System.WellFormed (· ∈ space.names) (kept ++ cs))
    (h : irredundant space kept cs = .ok out) (ρ : String → Int) :
    System.Holds out ρ ↔ System.Holds (kept ++ cs) ρ := by
  induction cs generalizing kept with
  | nil =>
    cases h
    rw [List.append_nil]
  | cons c cs ih =>
    rcases irredundant_cons hspace hs h with ⟨himplied, h⟩ | ⟨-, h⟩
    · have hsame : System.Holds (kept ++ c :: cs) ρ ↔
          c.Holds ρ ∧ System.Holds (kept ++ cs) ρ := by
        simp only [System.Holds, List.forall_mem_append, List.forall_mem_cons]
        exact and_left_comm
      rw [hsame, and_iff_right_of_imp (himplied ρ)]
      exact ih (hs.sublist ((List.sublist_cons_self c cs).append_left kept)) h
    · rw [List.append_cons] at hs ⊢
      exact ih hs h

theorem removeRedundancies_holds (hb : b.WellFormed) (h : b.removeRedundancies = .ok a)
    (ρ : String → Int) : a.Holds ρ ↔ b.Holds ρ := by
  obtain ⟨empty, hempty, h⟩ := bind_eq_ok.mp h
  have hdecides := isEmpty_spec hb hempty
  cases empty with
  | true =>
    cases h
    exact iff_of_false not_holds_empty (hdecides.mp rfl ρ)
  | false =>
    obtain ⟨out, hout, h⟩ := bind_eq_ok.mp h
    cases h
    have hfeasible : b.isContradictory = false := by
      refine Bool.eq_false_iff.mpr fun hcontra => Bool.false_ne_true (hdecides.mpr fun ρ => ?_)
      exact not_holds_of_isContradictory hcontra
    rw [holds_iff_constraints hfeasible, holds_iff_constraints rfl]
    have hs : System.WellFormed (· ∈ b.space.names) ([] ++ b.constraints) := hb.system
    exact irredundant_holds hb.distinct hs hout ρ

end Redundancy

end Conjunction

namespace IntegerSet

open Conjunction (Inside PiecesOver)

variable {s t : IntegerSet}

def Consistent (bs : List Conjunction) : Prop :=
  ∀ b ∈ bs, b.WellFormed ∧ b.isContradictory = false

theorem isCovered_spec {others : List (Conjunction × Bool)} (hp : p.WellFormed)
    (hfeasible : p.isContradictory = false) (hothers : Consistent (others.map Prod.fst))
    (h : isCovered p others = .ok v) :
    v = true ↔ ∃ q ∈ others, p.Inside q.1 ∧ (q.2 = true ∨ ¬ q.1.Inside p) := by
  induction others with
  | nil =>
    cases h
    simp
  | cons q others ih =>
    obtain ⟨q, earlier⟩ := q
    obtain ⟨⟨hq, hqfeasible⟩, hothers⟩ := List.forall_mem_cons.mp hothers
    simp only [isCovered, bind_eq_ok] at h
    obtain ⟨left, hleft, h⟩ := h
    have hinside := Conjunction.subtract_isEmpty_iff hp hq hqfeasible hleft
    rw [List.exists_mem_cons_iff, ← hinside]
    split_ifs at h with hempty
    · -- Of two equal pieces only the later one counts as covered.
      obtain ⟨right, hright, h⟩ := bind_eq_ok.mp h
      rw [← Conjunction.subtract_isEmpty_iff hq hp hfeasible hright]
      split_ifs at h with hcover
      · cases h
        rw [Bool.or_eq_true, Bool.not_eq_true', ← Bool.not_eq_true] at hcover
        exact iff_of_true rfl (.inl ⟨hempty, hcover.symm⟩)
      · rw [ih hothers h]
        rw [Bool.or_eq_true, Bool.not_eq_true', not_or] at hcover
        simp [hcover.1, hcover.2]
    · rw [ih hothers h]
      simp [hempty]

/-- The piece lies inside one of the pieces before it, or properly inside one of those after it. -/
def Dominated (before : List Conjunction) (p : Conjunction) (after : List Conjunction) : Prop :=
  (∃ q ∈ before, p.Inside q) ∨ ∃ q ∈ after, p.Inside q ∧ ¬ q.Inside p

theorem uncovered_cons {before out : List Conjunction} (hbs : Consistent (before ++ p :: bs))
    (h : uncovered before (p :: bs) = .ok out) :
    ∃ rest, uncovered (before ++ [p]) bs = .ok rest ∧
      (Dominated before p bs ∧ out = rest ∨ ¬ Dominated before p bs ∧ out = p :: rest) := by
  simp only [uncovered, bind_eq_ok] at h
  obtain ⟨covered, hcovered, rest, hrest, h⟩ := h
  cases h
  obtain ⟨hp, hfeasible⟩ := hbs p (by simp)
  have hothers : Consistent ((before.map (·, true) ++ bs.map (·, false)).map Prod.fst) := by
    intro q hq
    refine hbs q ?_
    simp only [List.map_append, List.map_map, List.mem_append, List.mem_map, Function.comp_apply,
      exists_eq_right] at hq
    exact List.mem_append.mpr (hq.imp_right (List.mem_cons_of_mem _))
  have hdominated : covered = true ↔ Dominated before p bs := by
    rw [isCovered_spec hp hfeasible hothers hcovered]
    simp only [List.mem_append, List.mem_map, or_and_right, exists_or, Dominated]
    simp
  refine ⟨rest, hrest, ?_⟩
  cases covered with
  | true => exact .inl ⟨hdominated.mp rfl, rfl⟩
  | false => exact .inr ⟨mt hdominated.mpr Bool.false_ne_true, rfl⟩

theorem uncovered_mem {before l r out : List Conjunction} (hbs : Consistent (before ++ bs))
    (h : uncovered before bs = .ok out) (hsplit : bs = l ++ p :: r) :
    p ∈ out ∨ Dominated (before ++ l) p r := by
  induction bs generalizing before l out with
  | nil => simp at hsplit
  | cons b bs ih =>
    obtain ⟨rest, hrest, hout⟩ := uncovered_cons hbs h
    cases l with
    | nil =>
      obtain ⟨rfl, rfl⟩ : b = p ∧ bs = r := by simpa using hsplit
      rw [List.append_nil]
      rcases hout with ⟨hdominated, -⟩ | ⟨-, rfl⟩
      · exact .inr hdominated
      · exact .inl (List.mem_cons_self ..)
    | cons b' l =>
      obtain ⟨rfl, htail⟩ : b = b' ∧ bs = l ++ p :: r := by simpa using hsplit
      rw [List.append_cons] at hbs ⊢
      refine (ih hbs hrest htail).imp_left fun hp => ?_
      rcases hout with ⟨-, rfl⟩ | ⟨-, rfl⟩
      · exact hp
      · exact List.mem_cons_of_mem _ hp

theorem exists_first_maximal (h : ∃ b ∈ bs, b.Holds ρ) :
    ∃ l p r, bs = l ++ p :: r ∧ p.Holds ρ ∧ (∀ q ∈ bs, p.Inside q → q.Inside p) ∧
      ∀ q ∈ l, ¬ p.Inside q := by
  classical
  let Top (p : Conjunction) : Prop := p.Holds ρ ∧ ∀ q ∈ bs, p.Inside q → q.Inside p
  have hfinite : {b | b ∈ bs ∧ b.Holds ρ}.Finite :=
    bs.finite_toSet.subset fun b hb => hb.1
  obtain ⟨top, ⟨hmem, hρ⟩, hmax⟩ :=
    hfinite.exists_maximalFor Conjunction.Holds {b | b ∈ bs ∧ b.Holds ρ} h
  have htop : Top top := ⟨hρ, fun q hq hinside => hmax ⟨hq, hinside ρ hρ⟩ hinside⟩
  obtain ⟨p, hp⟩ : ∃ p, bs.find? (fun b => decide (Top b)) = some p := by
    rw [← Option.isSome_iff_exists, List.find?_isSome]
    exact ⟨top, hmem, decide_eq_true htop⟩
  obtain ⟨hTop, l, r, hsplit, hfirst⟩ := List.find?_eq_some_iff_append.mp hp
  obtain ⟨hpρ, hpmax⟩ := of_decide_eq_true hTop
  refine ⟨l, p, r, hsplit, hpρ, hpmax, fun q hq hinside => ?_⟩
  -- A piece around a maximal one is maximal, and `p` is the first of them.
  have hqp := hpmax q (by simp [hsplit, hq]) hinside
  have hqTop : Top q := by
    refine ⟨hinside ρ hpρ, fun q' hq' hqq' => ?_⟩
    have hq'p := hpmax q' hq' fun ρ hρ => hqq' ρ (hinside ρ hρ)
    exact fun ρ hρ => hinside ρ (hq'p ρ hρ)
  have hnot := hfirst q hq
  rw [decide_eq_true hqTop] at hnot
  cases hnot

theorem uncovered_holds {out : List Conjunction} (hbs : Consistent bs)
    (h : uncovered [] bs = .ok out) (ρ : String → Int) :
    (∃ p ∈ out, p.Holds ρ) ↔ ∃ p ∈ bs, p.Holds ρ := by
  constructor
  · rintro ⟨p, hp, hρ⟩
    exact ⟨p, (uncovered_sublist h).subset hp, hρ⟩
  · intro hρ
    obtain ⟨l, p, r, hsplit, hpρ, hmax, hfirst⟩ := exists_first_maximal hρ
    have hbs' : Consistent ([] ++ bs) := hbs
    rcases uncovered_mem hbs' h hsplit with hp | ⟨q, hq, hinside⟩ | ⟨q, hq, hinside, hstrict⟩
    · exact ⟨p, hp, hpρ⟩
    · exact absurd hinside (hfirst q hq)
    · exact absurd (hmax q (by simp [hsplit, hq]) hinside) hstrict

theorem coalesce_cases (hs : s.WellFormed) (h : s.coalesce = .ok t) :
    ∃ simplified left, s.pieces.mapM (·.removeRedundancies) = .ok simplified ∧
      uncovered [] (simplified.filter fun b => !b.isContradictory) = .ok left ∧
      Consistent (simplified.filter fun b => !b.isContradictory) ∧ t = ⟨s.space, left⟩ := by
  simp only [coalesce, bind_eq_ok] at h
  obtain ⟨simplified, hsimp, left, hleft, h⟩ := h
  have hspec {q : Conjunction} (hq : q ∈ simplified) : q.WellFormed ∧ q.space = s.space := by
    obtain ⟨p, hp, hpq⟩ := exists_of_mapM_mem hsimp hq
    obtain ⟨hwf, hspace⟩ := hs.pieces p hp
    exact ⟨(Conjunction.removeRedundancies_wellFormed hwf hpq).1,
      (Conjunction.removeRedundancies_wellFormed hwf hpq).2.trans hspace⟩
  have hconsistent : Consistent (simplified.filter fun b => !b.isContradictory) := by
    intro q hq
    obtain ⟨hq, hfeasible⟩ := List.mem_filter.mp hq
    exact ⟨(hspec hq).1, by simpa using hfeasible⟩
  have hsub := (uncovered_sublist hleft).subset
  have hadd : ofPieces s.space left = .ok ⟨s.space, left⟩ :=
    addPieces_append (fun q hq => (hspec (List.mem_filter.mp (hsub hq)).1).2)
      fun q hq => (hconsistent q (hsub hq)).2
  exact ⟨simplified, left, hsimp, hleft, hconsistent, Except.ok.inj (h.symm.trans hadd)⟩

theorem coalesce_spec (hs : s.WellFormed) (h : s.coalesce = .ok t) :
    t.WellFormed ∧ t.space = s.space ∧ ∀ ρ, t.Mem ρ ↔ s.Mem ρ := by
  refine ⟨coalesce_wellFormed hs h, ?_⟩
  obtain ⟨simplified, left, hsimp, hleft, hconsistent, rfl⟩ := coalesce_cases hs h
  have hholds {p q : Conjunction} (hp : p ∈ s.pieces) (hq : p.removeRedundancies = .ok q) :=
    Conjunction.removeRedundancies_holds (hs.pieces p hp).1 hq
  refine ⟨rfl, fun ρ => (uncovered_holds hconsistent hleft ρ).trans ⟨?_, ?_⟩⟩
  · rintro ⟨q, hq, hρ⟩
    obtain ⟨p, hp, hpq⟩ := exists_of_mapM_mem hsimp (List.mem_filter.mp hq).1
    exact ⟨p, hp, (hholds hp hpq ρ).mp hρ⟩
  · rintro ⟨p, hp, hρ⟩
    obtain ⟨q, hq, hpq⟩ := exists_mapM_mem hsimp hp
    have hqρ : q.Holds ρ := (hholds hp hpq ρ).mpr hρ
    refine ⟨q, List.mem_filter.mpr ⟨hq, ?_⟩, hqρ⟩
    simp [Conjunction.isContradictory_of_holds hqρ]

end IntegerSet

end LoopAudit
