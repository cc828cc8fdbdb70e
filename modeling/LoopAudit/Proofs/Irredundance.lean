import LoopAudit.Proofs.Coalescing
import LoopAudit.Proofs.Exactness

/-! Simplified sets. Nothing in a simplified set can go: its pieces have points, none lies inside
another, and no constraint follows from the others of its piece. A set without redundancy is left
as it is, so that simplifying twice is simplifying once. -/

namespace LoopAudit

open Fallible

variable {a b p : Conjunction} {c : Constraint} {cs kept out : List Constraint}
  {bs : List Conjunction} {space : Space}

def System.Irredundant (s : System) : Prop :=
  ∀ l c r, s = l ++ c :: r → ∃ ρ, System.Holds (l ++ r) ρ ∧ ¬ c.Holds ρ

namespace Conjunction

/-- Every constraint kept so far is missed at a point where the other kept ones and the remaining
ones hold. -/
def Needed (kept cs : List Constraint) : Prop :=
  ∀ l c r, kept = l ++ c :: r → ∃ ρ, System.Holds (l ++ r ++ cs) ρ ∧ ¬ c.Holds ρ

theorem Needed.drop (h : Needed kept (c :: cs)) : Needed kept cs := by
  intro l d r hsplit
  obtain ⟨ρ, hρ, hd⟩ := h l d r hsplit
  refine ⟨ρ, fun e he => hρ e ?_, hd⟩
  exact ((List.sublist_cons_self c cs).append_left (l ++ r)).subset he

theorem Needed.keep {ρ : String → Int} (h : Needed kept (c :: cs))
    (hρ : System.Holds (kept ++ cs) ρ) (hc : ¬ c.Holds ρ) : Needed (kept ++ [c]) cs := by
  intro l d r hsplit
  rcases List.eq_nil_or_concat r with rfl | ⟨r, e, rfl⟩
  · obtain ⟨rfl, ⟨⟩⟩ := List.append_inj' hsplit rfl
    exact ⟨ρ, by simpa using hρ, hc⟩
  · obtain ⟨hkept, ⟨⟩⟩ : kept = l ++ d :: r ∧ [c] = [e] := by
      refine List.append_inj' (hsplit.trans ?_) rfl
      simp
    obtain ⟨σ, hσ, hd⟩ := h l d r hkept
    exact ⟨σ, by simpa using hσ, hd⟩

theorem irredundant_minimal (hspace : space.Distinct)
    (hs : System.WellFormed (· ∈ space.names) (kept ++ cs)) (hneeded : Needed kept cs)
    (h : irredundant space kept cs = .ok out) : System.Irredundant out := by
  induction cs generalizing kept with
  | nil =>
    cases h
    simpa [Needed, System.Irredundant] using hneeded
  | cons c cs ih =>
    rcases irredundant_cons hspace hs h with ⟨-, h⟩ | ⟨⟨ρ, hρ, hc⟩, h⟩
    · exact ih (hs.sublist ((List.sublist_cons_self c cs).append_left kept)) hneeded.drop h
    · rw [List.append_cons] at hs
      exact ih hs (hneeded.keep hρ hc) h

theorem irredundant_self (hspace : space.Distinct)
    (hs : System.WellFormed (· ∈ space.names) (kept ++ cs))
    (hneeded : System.Irredundant (kept ++ cs)) (h : irredundant space kept cs = .ok out) :
    out = kept ++ cs := by
  induction cs generalizing kept with
  | nil =>
    cases h
    rw [List.append_nil]
  | cons c cs ih =>
    rcases irredundant_cons hspace hs h with ⟨himplied, -⟩ | ⟨-, h⟩
    · obtain ⟨ρ, hρ, hc⟩ := hneeded kept c cs rfl
      exact absurd (himplied ρ hρ) hc
    · rw [List.append_cons] at hs hneeded ⊢
      exact ih hs hneeded h

structure Reduced (b : Conjunction) : Prop where
  point : ∃ ρ, b.Holds ρ
  irredundant : System.Irredundant b.constraints

theorem removeRedundancies_reduced (hb : b.WellFormed) (h : b.removeRedundancies = .ok a)
    (hfeasible : a.isContradictory = false) : a.Reduced := by
  have hholds := removeRedundancies_holds hb h
  obtain ⟨empty, hempty, h⟩ := bind_eq_ok.mp h
  cases empty with
  | true =>
    cases h
    cases hfeasible
  | false =>
    have hpoint : ¬ ∀ ρ, ¬ b.Holds ρ := mt (isEmpty_spec hb hempty).mpr Bool.false_ne_true
    obtain ⟨ρ, hρ⟩ := not_forall_not.mp hpoint
    refine ⟨⟨ρ, (hholds ρ).mpr hρ⟩, ?_⟩
    obtain ⟨out, hout, h⟩ := bind_eq_ok.mp h
    cases h
    have hs : System.WellFormed (· ∈ b.space.names) ([] ++ b.constraints) := hb.system
    exact irredundant_minimal hb.distinct hs (by simp [Needed]) hout

theorem removeRedundancies_self (hb : b.WellFormed) (hreduced : b.Reduced)
    (h : b.removeRedundancies = .ok a) : a = b := by
  obtain ⟨ρ, hρ⟩ := hreduced.point
  obtain ⟨empty, hempty, h⟩ := bind_eq_ok.mp h
  cases empty with
  | true => exact absurd hρ ((isEmpty_spec hb hempty).mp rfl ρ)
  | false =>
    obtain ⟨out, hout, h⟩ := bind_eq_ok.mp h
    have hs : System.WellFormed (· ∈ b.space.names) ([] ++ b.constraints) := hb.system
    obtain rfl : out = b.constraints :=
      irredundant_self hb.distinct hs hreduced.irredundant hout
    cases h
    rw [← hρ.1]

end Conjunction

namespace IntegerSet

open Conjunction (Inside Reduced)

variable {s t u : IntegerSet} {before left : List Conjunction}

def Incomparable (p q : Conjunction) : Prop := ¬ p.Inside q ∧ ¬ q.Inside p

theorem uncovered_incomparable (hbs : Consistent (before ++ bs))
    (h : uncovered before bs = .ok left) :
    (∀ p ∈ left, ∀ q ∈ before, ¬ p.Inside q) ∧ left.Pairwise Incomparable := by
  induction bs generalizing before left with
  | nil =>
    cases h
    exact ⟨fun p hp => absurd hp List.not_mem_nil, .nil⟩
  | cons b bs ih =>
    obtain ⟨rest, hrest, hout⟩ := uncovered_cons hbs h
    rw [List.append_cons] at hbs
    obtain ⟨hoff, hpairs⟩ := ih hbs hrest
    have hbefore : ∀ p ∈ rest, ∀ q ∈ before, ¬ p.Inside q := fun p hp q hq =>
      hoff p hp q (List.mem_append_left _ hq)
    rcases hout with ⟨-, rfl⟩ | ⟨hfree, rfl⟩
    · exact ⟨hbefore, hpairs⟩
    · obtain ⟨hfirst, hlater⟩ := not_or.mp hfree
      refine ⟨List.forall_mem_cons.mpr ⟨fun q hq hinside => hfirst ⟨q, hq, hinside⟩, hbefore⟩,
        List.pairwise_cons.mpr ⟨fun q hq => ?_, hpairs⟩⟩
      -- A later piece that stays is not inside this one, so this one is not inside it either.
      have hqb : ¬ q.Inside b := hoff q hq b (by simp)
      exact ⟨fun hbq => hlater ⟨q, (uncovered_sublist hrest).subset hq, hbq, hqb⟩, hqb⟩

theorem uncovered_self (hbs : Consistent (before ++ bs))
    (hpairs : (before ++ bs).Pairwise Incomparable) (h : uncovered before bs = .ok left) :
    left = bs := by
  induction bs generalizing before left with
  | nil =>
    cases h
    rfl
  | cons b bs ih =>
    obtain ⟨rest, hrest, hout⟩ := uncovered_cons hbs h
    have hrestEq : rest = bs := by
      rw [List.append_cons] at hbs hpairs
      exact ih hbs hpairs hrest
    obtain ⟨-, hcons, hcross⟩ := List.pairwise_append.mp hpairs
    rcases hout with ⟨⟨q, hq, hinside⟩ | ⟨q, hq, hinside, -⟩, -⟩ | ⟨-, rfl⟩
    · exact absurd hinside (hcross q hq b (List.mem_cons_self ..)).2
    · exact absurd hinside ((List.pairwise_cons.mp hcons).1 q hq).1
    · rw [hrestEq]

theorem coalesce_reduced (hs : s.WellFormed) (h : s.coalesce = .ok t) :
    (∀ p ∈ t.pieces, p.Reduced) ∧ t.pieces.Pairwise Incomparable := by
  obtain ⟨simplified, left, hsimp, hleft, hconsistent, rfl⟩ := coalesce_cases hs h
  have hconsistent' : Consistent ([] ++ simplified.filter fun b => !b.isContradictory) :=
    hconsistent
  refine ⟨fun q hq => ?_, (uncovered_incomparable hconsistent' hleft).2⟩
  have hkept := (uncovered_sublist hleft).subset hq
  obtain ⟨p, hp, hpq⟩ := exists_of_mapM_mem hsimp (List.mem_filter.mp hkept).1
  exact Conjunction.removeRedundancies_reduced (hs.pieces p hp).1 hpq (hconsistent q hkept).2

theorem coalesce_self (hs : s.WellFormed) (hreduced : ∀ p ∈ s.pieces, p.Reduced)
    (hpairs : s.pieces.Pairwise Incomparable) (h : s.coalesce = .ok t) : t = s := by
  obtain ⟨simplified, left, hsimp, hleft, hconsistent, rfl⟩ := coalesce_cases hs h
  obtain rfl : simplified = s.pieces := mapM_eq_self
    (fun p hp q hq => Conjunction.removeRedundancies_self (hs.pieces p hp).1 (hreduced p hp) hq)
    hsimp
  have hfilter : (s.pieces.filter fun b => !b.isContradictory) = s.pieces :=
    List.filter_eq_self.mpr fun p hp => by simp [hs.feasible p hp]
  rw [hfilter] at hleft hconsistent
  have hconsistent' : Consistent ([] ++ s.pieces) := hconsistent
  rw [uncovered_self hconsistent' hpairs hleft]

/-- A simplified set has the space and the points of the set. Every piece has a point, at different
places stand pieces none of which lies inside the other, no constraint of a piece follows from the
others, and simplifying again changes nothing. -/
theorem coalesce_irredundant (hs : s.Built) (h : s.coalesce = .ok t) :
    t.space = s.space ∧ (∀ ρ, t.Mem ρ ↔ s.Mem ρ) ∧ (∀ p ∈ t.pieces, ∃ ρ, p.Holds ρ) ∧
      (∀ i j : Fin t.pieces.length, i ≠ j →
        ∃ ρ, (t.pieces.get i).Holds ρ ∧ ¬ (t.pieces.get j).Holds ρ) ∧
      (∀ p ∈ t.pieces, ∀ l c r, p.constraints = l ++ c :: r →
        ∃ ρ, (∀ d ∈ l ++ r, d.Holds ρ) ∧ ¬ c.Holds ρ) ∧
      ∀ u, t.coalesce = .ok u → u = t := by
  obtain ⟨hwf, hspace, hmem⟩ := coalesce_spec hs.wellFormed h
  obtain ⟨hreduced, hpairs⟩ := coalesce_reduced hs.wellFormed h
  refine ⟨hspace, hmem, fun p hp => (hreduced p hp).point, fun i j hne => ?_,
    fun p hp => (hreduced p hp).irredundant, fun u hu => coalesce_self hwf hreduced hpairs hu⟩
  have hget := List.pairwise_iff_get.mp hpairs
  have hnot : ¬ (t.pieces.get i).Inside (t.pieces.get j) := by
    rcases lt_or_gt_of_ne hne with hlt | hlt
    · exact (hget i j hlt).1
    · exact (hget j i hlt).2
  simpa only [Inside, not_forall, exists_prop] using hnot

def quadrants : IntegerSet :=
  let space : Space := ⟨[], ["i", "j"]⟩
  ⟨space, [
    ⟨space, [.ge ⟨[("i", 1)], 0⟩, .ge ⟨[("i", 1), ("j", 1)], 1⟩, .ge ⟨[("j", 1)], 0⟩], false⟩,
    ⟨space, [.eq ⟨[("i", 1)], -3⟩, .eq ⟨[("j", 1)], 0⟩], false⟩,
    ⟨space, [.ge ⟨[("j", 1)], 0⟩, .ge ⟨[("i", 1)], 0⟩], false⟩,
    ⟨space, [⟨.mod 2, ⟨[("i", 1)], 1⟩⟩], false⟩]⟩

theorem quadrants_built : quadrants.Built := .remade (by decide) (by decide) rfl

theorem quadrants_coalesce :
    ∃ t, quadrants.coalesce = .ok t ∧ t.pieces.map Conjunction.constraints =
        [[.ge ⟨[("i", 1)], 0⟩, .ge ⟨[("j", 1)], 0⟩], [⟨.mod 2, ⟨[("i", 1)], 1⟩⟩]] ∧
      (∀ ρ, t.Mem ρ ↔ quadrants.Mem ρ) ∧
      (∀ i j : Fin t.pieces.length, i ≠ j →
        ∃ ρ, (t.pieces.get i).Holds ρ ∧ ¬ (t.pieces.get j).Holds ρ) ∧
      t.coalesce = .ok t := by
  obtain ⟨t, u, h, hpieces, hu⟩ : ∃ t u, quadrants.coalesce = .ok t ∧
      t.pieces.map Conjunction.constraints =
        [[.ge ⟨[("i", 1)], 0⟩, .ge ⟨[("j", 1)], 0⟩], [⟨.mod 2, ⟨[("i", 1)], 1⟩⟩]] ∧
      t.coalesce = .ok u := ⟨_, _, rfl, rfl, rfl⟩
  obtain ⟨-, hmem, -, hapart, -, hagain⟩ := coalesce_irredundant quadrants_built h
  obtain rfl := hagain u hu
  exact ⟨u, h, hpieces, hmem, hapart, hu⟩

end IntegerSet

end LoopAudit
