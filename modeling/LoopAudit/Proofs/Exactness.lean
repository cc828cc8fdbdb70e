import LoopAudit.Proofs.Representation

/-! Every answer of the set library is exact over the integers: projections, samples, the algebra of
sets and its queries. What cannot be answered exactly is an error. -/

namespace LoopAudit

namespace Conjunction

/-- The pieces of a projection no longer mention the names and hold exactly where some values of the
names satisfy the conjunction. -/
theorem projectOut_exact {b : Conjunction} {names : List String} {pieces : List Conjunction}
    (hb : b.Built) (h : b.projectOut names = .ok pieces) :
    (∀ p ∈ pieces, ∀ x ∈ names, x ∉ p.space.names ∧ ∀ c ∈ p.constraints, x ∉ c.form.vars) ∧
      ∀ ρ : String → Int, (∃ p ∈ pieces, p.Holds ρ) ↔
        ∃ σ : String → Int, (∀ y, y ∉ names → σ y = ρ y) ∧ b.Holds σ := by
  obtain ⟨hpieces, hiff⟩ := projectOut_spec hb.wellFormed h
  refine ⟨fun p hp x hx => ?_, hiff⟩
  obtain ⟨hwf, hspace⟩ := hpieces p hp
  have hfresh : x ∉ p.space.names := by
    rw [hspace, Space.mem_names_without]
    exact fun hmem => hmem.2 hx
  exact ⟨hfresh, fun c hc hxc => hfresh ((hwf.constraint hc).form.within x hxc)⟩

def nearThirds : Conjunction :=
  ⟨⟨[], ["i", "j"]⟩, [.ge ⟨[("i", -2), ("j", 3)], 0⟩, .ge ⟨[("i", 2), ("j", -3)], 1⟩], false⟩

theorem nearThirds_built : nearThirds.Built := .remade (by decide) (by decide) rfl

theorem nearThirds_projectOut :
    ∃ pieces, nearThirds.projectOut ["j"] = .ok pieces ∧ pieces.length = 2 ∧
      ∀ ρ : String → Int, (∃ p ∈ pieces, p.Holds ρ) ↔
        ∃ σ : String → Int, (∀ y, y ∉ ["j"] → σ y = ρ y) ∧ nearThirds.Holds σ :=
  ⟨_, rfl, rfl, (projectOut_exact nearThirds_built rfl).2⟩

/-- A sampled point binds the names of the space, parameters first and each once, and satisfies the
conjunction; without a point there is no solution at all, inside or outside the word range. Untried
values and the step budget show as an exhausted search, never as an answer. -/
theorem sample_exact {b : Conjunction} (hb : b.Built) :
    (∀ p, b.sample = .ok (some p) →
      p.coords.map Prod.fst = b.space.params ++ b.space.dims ∧
        (b.space.params ++ b.space.dims).Nodup ∧ b.Holds p.value) ∧
      (b.sample = .ok none → b.isEmpty = .ok true ∧ ∀ ρ : String → Int, ¬ b.Holds ρ) ∧
        ∀ e, b.sample = .error e → e = .searchExhausted ∨ e = .overflow ∨ e = .trap := by
  refine ⟨fun p hp => ?_, fun h => ⟨?_, sample_eq_none hb.wellFormed h⟩, sample_exhausts⟩
  · obtain ⟨hnames, hholds⟩ := sample_eq_some hb.wellFormed hp
    exact ⟨hnames, hb.wellFormed.distinct, hholds⟩
  · rw [isEmpty, h]
    rfl

theorem nearThirds_sample :
    nearThirds.sample = .ok (some ⟨[("i", 0), ("j", 0)]⟩) ∧
      nearThirds.Holds (Point.value ⟨[("i", 0), ("j", 0)]⟩) :=
  ⟨rfl, ((sample_exact nearThirds_built).1 _ rfl).2.2⟩

end Conjunction

namespace IntegerSet

/-- Union, intersection and difference are those of sets of assignments, over whatever spaces the
operands have, and inclusion, equality and emptiness are decided over all integers. -/
theorem algebra_exact {a b : IntegerSet} (ha : a.Built) (hb : b.Built) :
    (∀ c, a.union b = .ok c → ∀ ρ, c.Mem ρ ↔ a.Mem ρ ∨ b.Mem ρ) ∧
      (∀ c, a.intersect b = .ok c → ∀ ρ, c.Mem ρ ↔ a.Mem ρ ∧ b.Mem ρ) ∧
      (∀ c, a.subtract b = .ok c → ∀ ρ, c.Mem ρ ↔ a.Mem ρ ∧ ¬ b.Mem ρ) ∧
      (∀ v, a.isSubset b = .ok v → (v = true ↔ ∀ ρ, a.Mem ρ → b.Mem ρ)) ∧
      (∀ v, a.isEqual b = .ok v → (v = true ↔ ∀ ρ, a.Mem ρ ↔ b.Mem ρ)) ∧
      ∀ v, a.isEmpty = .ok v → (v = true ↔ ∀ ρ, ¬ a.Mem ρ) := by
  have ha' := ha.wellFormed
  have hb' := hb.wellFormed
  exact ⟨fun c h => (union_spec ha' hb' h).2.2, fun c h => (intersect_spec ha' hb' h).2.2,
    fun c h => (subtract_spec ha' hb' h).2.2, fun v h => isSubset_spec ha' hb' h,
    fun v h => isEqual_spec ha' hb' h, fun v h => isEmpty_spec ha' h⟩

def belowN : IntegerSet :=
  ⟨⟨["n"], ["i"]⟩,
    [⟨⟨["n"], ["i"]⟩, [.ge ⟨[("i", 1)], 0⟩, .ge ⟨[("i", -1), ("n", 1)], -1⟩], false⟩]⟩

def evens : IntegerSet := ⟨⟨[], ["i"]⟩, [⟨⟨[], ["i"]⟩, [⟨.mod 2, ⟨[("i", 1)], 0⟩⟩], false⟩]⟩

theorem belowN_built : belowN.Built := .remade (by decide) (by decide) rfl

theorem evens_built : evens.Built := .remade (by decide) (by decide) rfl

theorem belowN_evens_algebra :
    (∃ c, belowN.subtract evens = .ok c ∧ ∀ ρ, c.Mem ρ ↔ belowN.Mem ρ ∧ ¬ evens.Mem ρ) ∧
      belowN.isSubset evens = .ok false ∧ ¬ ∀ ρ, belowN.Mem ρ → evens.Mem ρ := by
  obtain ⟨-, -, hsub, hsubset, -⟩ := algebra_exact belowN_built evens_built
  have hfalse : belowN.isSubset evens = .ok false := rfl
  refine ⟨⟨_, rfl, hsub _ rfl⟩, hfalse, fun h => Bool.false_ne_true ?_⟩
  exact (hsubset false hfalse).mpr h

end IntegerSet

end LoopAudit
