import LoopAudit.Proofs.AccessRange
import LoopAudit.Proofs.Exactness

/-! The range of a subscript is the image of the domain under its indices, whatever floor divisions
and remainders they nest. -/

namespace LoopAudit.Expr

variable {domain range : IntegerSet} {index : List Expr} {axes : List String}

theorem IsImage.take_dims (h : IsImage domain index range axes) :
    range.space.dims.take index.length = axes := by
  rw [← h.length]
  exact (List.prefix_iff_eq_take.mp h.dims).symm

theorem IsImage.nodup (h : IsImage domain index range axes) : axes.Nodup := by
  have hdims := (Space.distinct_iff.mp h.wellFormed.distinct).2.1
  exact List.Nodup.sublist h.dims.sublist hdims

theorem IsImage.exists_iff (h : IsImage domain index range axes) (π : String → Int)
    (t : List Int) :
    (∃ σ, (∀ p ∈ domain.space.params, σ p = π p) ∧ axes.map σ = t ∧ range.Mem σ) ↔
      ∃ ρ, (∀ p ∈ domain.space.params, ρ p = π p) ∧ domain.Mem ρ ∧
        index.map (value ρ) = t.map some := by
  constructor
  · rintro ⟨σ, hπ, ht, hrange⟩
    obtain ⟨ρ, hρ, hdomain, hvalues⟩ := h.comes σ hrange
    refine ⟨ρ, fun p hp => ?_, hdomain, ?_⟩
    · have hp' : p ∈ range.space.names := by
        rw [← h.params] at hp
        exact List.mem_append_left _ hp
      rw [hρ p hp', hπ p hp]
    · rw [hvalues, ← ht, List.map_map]
      rfl
  · rintro ⟨ρ, hπ, hdomain, ht⟩
    obtain ⟨σ, hσ, hrange, hvalues⟩ := h.reached ρ hdomain
    refine ⟨σ, fun p hp => ?_, ?_, hrange⟩
    · rw [hσ p (List.mem_append_left _ hp), hπ p hp]
    · have hsome : (axes.map σ).map some = t.map some := by
        rw [← ht, hvalues, List.map_map]
        rfl
      exact List.map_injective_iff.mpr (Option.some_injective Int) hsome

/-- The first dimensions of a range are new names, one for each index, and its parameters are those
of the domain. For all values of the parameters, the tuples that the range has on these dimensions
are exactly the tuples that the indices take at points of the domain. -/
theorem accessRange_exact (hd : domain.Built)
    (h : accessRange domain index = .ok (some range)) :
    (range.space.dims.take index.length).length = index.length ∧
      (range.space.dims.take index.length).Nodup ∧
      (∀ a ∈ range.space.dims.take index.length, a ∉ domain.space.names) ∧
      range.space.params = domain.space.params ∧
      ∀ (π : String → Int) (t : List Int),
        (∃ σ, (∀ p ∈ domain.space.params, σ p = π p) ∧
          (range.space.dims.take index.length).map σ = t ∧ range.Mem σ) ↔
        ∃ ρ, (∀ p ∈ domain.space.params, ρ p = π p) ∧ domain.Mem ρ ∧
          index.map (value ρ) = t.map some := by
  obtain ⟨axes, himage⟩ := accessRange_spec hd.wellFormed h
  rw [himage.take_dims]
  exact ⟨himage.length, himage.nodup, himage.fresh, himage.params, himage.exists_iff⟩

def halvesAndThirds : List Expr :=
  [.floorDiv (.var "i") (.int (-2)), .remainder (.floorDiv (.var "i") (.int 2)) (.int 3)]

theorem halvesAndThirds_accessRange :
    ∃ range, accessRange IntegerSet.belowN halvesAndThirds = .ok (some range) ∧
      ∃ σ, σ "n" = 8 ∧ (range.space.dims.take 2).map σ = [-4, 0] ∧ range.Mem σ := by
  obtain ⟨range, h⟩ : ∃ r, accessRange IntegerSet.belowN halvesAndThirds = .ok (some r) := ⟨_, rfl⟩
  obtain ⟨-, -, -, -, himage⟩ := accessRange_exact IntegerSet.belowN_built h
  have hmem : IntegerSet.belowN.Mem fun x => if x = "n" then 8 else 7 :=
    ⟨_, List.mem_singleton.mpr rfl, rfl, by
      simp [System.Holds, Constraint.Holds, Constraint.ge, Relation.Holds]⟩
  obtain ⟨σ, hσ, ht, hrange⟩ := (himage (fun x => if x = "n" then 8 else 7) [-4, 0]).mpr
    ⟨_, fun _ _ => rfl, hmem, rfl⟩
  exact ⟨range, h, σ, hσ "n" (List.mem_singleton.mpr rfl), ht, hrange⟩

end LoopAudit.Expr
