import LoopAudit.Proofs.Coalescing
import LoopAudit.Proofs.Exactness

/-! The difference of two conjunctions as a partition. A piece satisfies the constraints before the
one that it violates, and the ways to violate one constraint exclude each other, so that a point of
the difference lies in one piece only. -/

namespace LoopAudit

theorem existsUnique_get {α : Type} {P : α → Prop} {l : List α}
    (hl : l.Pairwise fun a b => P a → ¬ P b) (h : ∃ a ∈ l, P a) :
    ∃! i : Fin l.length, P (l.get i) := by
  obtain ⟨a, ha, hP⟩ := h
  obtain ⟨i, rfl⟩ := List.get_of_mem ha
  refine ⟨i, hP, fun j hj => ?_⟩
  have hexcludes := List.pairwise_iff_get.mp hl
  rcases lt_trichotomy i j with hlt | heq | hlt
  · exact absurd hj (hexcludes i j hlt hP)
  · exact heq.symm
  · exact absurd hP (hexcludes j i hlt hj)

namespace Conjunction

open Fallible

variable {V : String → Prop} {a b : Conjunction} {cs : List Constraint} {pieces : List Conjunction}

def Excludes (a b : Conjunction) : Prop := ∀ ρ, a.Holds ρ → ¬ b.Holds ρ

theorem nonemptyWith_excludes (hb : b.WellFormed) (hcs : ∀ d ∈ cs, d.WellFormed V)
    (hapart : cs.Pairwise fun d d' => ∀ ρ, d.Holds ρ → ¬ d'.Holds ρ)
    (h : b.nonemptyWith cs = .ok pieces) : pieces.Pairwise Excludes := by
  induction cs generalizing pieces with
  | nil =>
    cases h
    exact .nil
  | cons d cs ih =>
    obtain ⟨hd, hcs⟩ := List.forall_mem_cons.mp hcs
    obtain ⟨hfirst, hapart⟩ := List.pairwise_cons.mp hapart
    simp only [nonemptyWith, bind_eq_ok] at h
    obtain ⟨piece, hpiece, empty, -, rest, hrest, h⟩ := h
    cases h
    cases empty with
    | true => exact ih hcs hapart hrest
    | false =>
      refine List.pairwise_cons.mpr ⟨fun q hq ρ hρ hqρ => ?_, ih hcs hapart hrest⟩
      obtain ⟨hdρ, -⟩ := ((addConstraint_spec hb hd hpiece).2.2 ρ).mp hρ
      obtain ⟨-, d', hd', hd'ρ⟩ := ((nonemptyWith_spec hb hcs hrest).2 ρ).mp ⟨q, hq, hqρ⟩
      exact hfirst d' hd' ρ hdρ hd'ρ

theorem violations_excludes (ha : a.WellFormed) (hcs : ∀ d ∈ cs, d.WellFormed V)
    (h : a.violations cs = .ok pieces) : pieces.Pairwise Excludes := by
  induction cs generalizing a pieces with
  | nil =>
    cases h
    exact .nil
  | cons d cs ih =>
    obtain ⟨hd, hcs⟩ := List.forall_mem_cons.mp hcs
    unfold violations at h
    split_ifs at h
    · cases h
      exact .nil
    · simp only [bind_eq_ok] at h
      obtain ⟨alternatives, halt, found, hfound, a', ha', rest, hrest, h⟩ := h
      cases h
      obtain ⟨halts, hnegates⟩ := Constraint.negate_spec hd halt
      obtain ⟨hwf', -, hholds'⟩ := addConstraint_spec ha hd ha'
      refine List.pairwise_append.mpr
        ⟨nonemptyWith_excludes ha halts (Constraint.negate_apart hd halt) hfound,
          ih hwf' hcs hrest, fun p hp q hq ρ hpρ hqρ => ?_⟩
      -- The pieces found now violate the first constraint, and all later ones satisfy it.
      obtain ⟨-, hviolated⟩ := ((nonemptyWith_spec ha halts hfound).2 ρ).mp ⟨p, hp, hpρ⟩
      obtain ⟨hkept, -⟩ := ((violations_spec hwf' hcs hrest).2 ρ).mp ⟨q, hq, hqρ⟩
      exact (hnegates ρ).mp hviolated ((hholds' ρ).mp hkept).1

theorem subtract_excludes (ha : a.WellFormed) (hb : b.WellFormed)
    (h : a.subtract b = .ok pieces) : pieces.Pairwise Excludes := by
  obtain ⟨acc, hacc, h⟩ := bind_eq_ok.mp h
  have hwf := (rehome_spec ha ha.distinct.align hacc).1
  split_ifs at h
  · cases h
    exact List.pairwise_singleton ..
  · exact violations_excludes hwf (fun d hd => (hb.constraint hd).toWellFormed) h

theorem existsUnique_piece {ρ : String → Int} (hpieces : pieces.Pairwise Excludes)
    (h : ∃ p ∈ pieces, p.Holds ρ) : ∃! i : Fin pieces.length, (pieces.get i).Holds ρ :=
  existsUnique_get (hpieces.imp fun h => h ρ) h

/-- Every point of the first conjunction outside the second lies in exactly one piece of the
difference, and no other assignment lies in any. Unless the second is a known contradiction, every
piece has a point. -/
theorem subtract_partition (ha : a.Built) (hb : b.Built) (h : a.subtract b = .ok pieces) :
    (∀ ρ, a.Holds ρ ∧ ¬ b.Holds ρ → ∃! i : Fin pieces.length, (pieces.get i).Holds ρ) ∧
      (∀ ρ, ¬ (a.Holds ρ ∧ ¬ b.Holds ρ) → ∀ p ∈ pieces, ¬ p.Holds ρ) ∧
      (b.isContradictory = false → ∀ p ∈ pieces, ∃ ρ, p.Holds ρ) := by
  have hiff := (subtract_spec ha.wellFormed hb.wellFormed h).2
  refine ⟨fun ρ hρ => ?_, fun ρ hρ p hp hpρ => hρ ((hiff ρ).mp ⟨p, hp, hpρ⟩), fun hfeasible => ?_⟩
  · exact existsUnique_piece (subtract_excludes ha.wellFormed hb.wellFormed h) ((hiff ρ).mpr hρ)
  · exact subtract_nonempty ha.wellFormed hb.wellFormed hfeasible h

def sixths : Conjunction :=
  ⟨⟨[], ["i", "j"]⟩, [.eq ⟨[("i", 1), ("j", -2)], 0⟩, ⟨.mod 3, ⟨[("j", 1)], 0⟩⟩], false⟩

theorem sixths_built : sixths.Built := .remade (by decide) (by decide) rfl

theorem nearThirds_sixths_partition :
    ∃ pieces, nearThirds.subtract sixths = .ok pieces ∧ pieces.length = 3 ∧
      (∀ ρ, nearThirds.Holds ρ ∧ ¬ sixths.Holds ρ →
        ∃! i : Fin pieces.length, (pieces.get i).Holds ρ) ∧
      ∀ p ∈ pieces, ∃ ρ, p.Holds ρ := by
  obtain ⟨pieces, h, hlength⟩ :
      ∃ pieces, nearThirds.subtract sixths = .ok pieces ∧ pieces.length = 3 := ⟨_, rfl, rfl⟩
  obtain ⟨hone, -, hpoint⟩ := subtract_partition nearThirds_built sixths_built h
  exact ⟨pieces, h, hlength, hone, hpoint rfl⟩

end Conjunction

end LoopAudit
