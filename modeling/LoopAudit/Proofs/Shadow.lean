import LoopAudit.Proofs.Representation

/-! The rational shadow as an approximation of the integer projection, for any list of constraints,
normalised or not. It loses no point, and where an equality or unit coefficients pin the eliminated
name down it adds none. -/

namespace LoopAudit.System

open Function

variable {s : System} {x : String} {o : Option System}

def UnitPairs (x : String) (s : System) : Prop :=
  ∀ c ∈ s, ∀ d ∈ s, c.relation = .ge → d.relation = .ge → 0 < c.form.coeff x → d.form.coeff x < 0 →
    (c.form.coeff x).natAbs = 1 ∨ (d.form.coeff x).natAbs = 1

theorem UnitPairs.bounds (h : UnitPairs x s) :
    ∀ l ∈ s.lowerBounds x, ∀ u ∈ s.upperBounds x, l.coeff x = 1 ∨ -u.coeff x = 1 := by
  intro l hl u hu
  obtain ⟨hl, hpos⟩ := mem_lowerBounds.mp hl
  obtain ⟨hu, hneg⟩ := mem_upperBounds.mp hu
  rcases h _ hl _ hu rfl rfl hpos hneg with hunit | hunit <;>
    simp only [Constraint.ge] at hunit hpos hneg <;> omega

theorem boundsOnly_of_no_congruence (hs : ∀ c ∈ s, c.Proper) (hpivot : s.pivot? x = none)
    (hmod : ∀ c ∈ s, ∀ m, c.relation = .mod m → x ∉ c.form.vars) : BoundsOnly x s := by
  intro c hc hx
  have hmem : x ∈ c.form.vars := (hs c hc).form.canonical.mem_vars_iff.mpr hx
  cases hr : c.relation with
  | eq => exact absurd hmem (pivot?_eq_none hpivot c hc hr)
  | ge => rfl
  | mod m => exact absurd hmem (hmod c hc m hr)

/-- The shadow of any list of constraints no longer mentions the name, and it holds wherever the
constraints do; without a shadow they hold nowhere. Where an equality mentions the name, or no
congruence does and each pair of bounds has a unit coefficient, a value of the name turns every
point of the shadow into a solution. -/
theorem shadow_sound (hs : ∀ c ∈ s, c.Proper) (h : s.shadow x = .ok o) :
    (∀ t, o = some t → t.mentions x = false) ∧
      (o = none → ∀ ρ, ¬ s.Holds ρ) ∧
      (∀ t, o = some t → ∀ ρ, s.Holds ρ → t.Holds ρ) ∧
      ((∃ c ∈ s, c.relation = .eq ∧ x ∈ c.form.vars) ∨
          (∀ c ∈ s, ∀ m, c.relation = .mod m → x ∉ c.form.vars) ∧ UnitPairs x s →
        ∀ t, o = some t → ∀ ρ, t.Holds ρ → ∃ v, s.Holds (update ρ x v)) := by
  obtain ⟨hwf, hholds⟩ := shadow_spec hs h
  refine ⟨fun t ht => ?_, ?_, ?_, fun hexact t ht ρ hρ => ?_⟩
  · rw [Bool.eq_false_iff, Ne, mentions_iff]
    rintro ⟨c, hc, hx⟩
    exact ((hwf t ht).each c hc).form.within x hx |>.2 rfl
  · rintro rfl ρ hρ
    obtain ⟨_, ⟨⟩, -⟩ := hholds ρ hρ
  · rintro t rfl ρ hρ
    obtain ⟨_, ⟨⟩, ht⟩ := hholds ρ hρ
    exact ht
  · have hdesc := shadow_describes hs (fun hpivot => ?_) h
    · exact (hdesc.holds_iff ρ).mp ⟨t, Option.mem_toList.mpr ht, hρ⟩
    · obtain ⟨c, hc, hr, hx⟩ | ⟨hmod, hunit⟩ := hexact
      · exact absurd hx (pivot?_eq_none hpivot c hc hr)
      · exact ⟨boundsOnly_of_no_congruence hs hpivot hmod, hunit.bounds⟩

def underSlope : System :=
  [.ge ⟨[("x", 1), ("y", -1)], 0⟩, .ge ⟨[("x", -3), ("z", 2)], 5⟩, .ge ⟨[("y", 2)], 3⟩,
    ⟨.mod 2, ⟨[("y", 1)], 0⟩⟩]

theorem underSlope_shadow :
    ∃ t, underSlope.shadow "x" = .ok (some t) ∧
      t = [.ge ⟨[("y", 1)], 1⟩, ⟨.mod 2, ⟨[("y", 1)], 0⟩⟩, .ge ⟨[("y", -3), ("z", 2)], 5⟩] ∧
      t.mentions "x" = false ∧
      ∀ ρ, t.Holds ρ → ∃ v, underSlope.Holds (update ρ "x" v) := by
  have hshadow : underSlope.shadow "x" = .ok (some [.ge ⟨[("y", 1)], 1⟩,
      ⟨.mod 2, ⟨[("y", 1)], 0⟩⟩, .ge ⟨[("y", -3), ("z", 2)], 5⟩]) := rfl
  obtain ⟨hfree, -, -, hexact⟩ := shadow_sound (by decide) hshadow
  refine ⟨_, hshadow, rfl, hfree _ rfl, hexact (.inr ⟨?_, ?_⟩) _ rfl⟩
  · simp [underSlope, Constraint.ge, Affine.vars]
  · unfold UnitPairs
    decide

end LoopAudit.System
