import LoopAudit.Proofs.Lowering
import LoopAudit.Proofs.SetAlgebra

/-! The range of a subscript over a domain. Its first dimensions are the axes, and it holds exactly
the tuples that the indices take at points of the domain: each point of the domain extends to one of
the range, and each point of the range comes from one of the domain. -/

namespace LoopAudit.Expr

open Fallible Lowering
open Conjunction (AgreeOff)

variable {domain range s t : IntegerSet} {index : List Expr} {axes : List String}

theorem eliminateExact_spec {n : Nat} {pending : List String} (hs : s.WellFormed)
    (h : eliminateExact n s pending = .ok t) :
    ∃ gone, (∀ x ∈ gone, x ∈ pending) ∧ t.WellFormed ∧ t.space = s.space.without gone ∧
      ∀ ρ, t.Mem ρ ↔ ∃ σ, AgreeOff gone σ ρ ∧ s.Mem σ := by
  induction n generalizing s pending with
  | zero =>
    cases h
    exact ⟨[], nofun, hs, by simp [Space.without], fun ρ => Conjunction.exists_agreeOff_nil.symm⟩
  | succ n ih =>
    unfold eliminateExact at h
    split at h
    · cases h
      exact ⟨[], nofun, hs, by simp [Space.without], fun ρ => Conjunction.exists_agreeOff_nil.symm⟩
    · next x hx =>
      obtain ⟨u, hu, h⟩ := bind_eq_ok.mp h
      obtain ⟨hwf, hspace, hmem⟩ := IntegerSet.projectOut_spec hs hu
      obtain ⟨gone, hgone, hwf', hspace', hmem'⟩ := ih hwf h
      refine ⟨[x] ++ gone, ?_, hwf', ?_, fun ρ => ?_⟩
      · have hxp : x ∈ pending := List.mem_of_find?_eq_some hx
        exact List.forall_mem_cons.mpr ⟨hxp, fun y hy => List.mem_of_mem_erase (hgone y hy)⟩
      · rw [hspace', hspace, Space.without_without]
      · rw [hmem', ← Conjunction.exists_agreeOff_append]
        simp only [hmem]

structure IsImage (domain : IntegerSet) (index : List Expr) (range : IntegerSet)
    (axes : List String) : Prop where
  wellFormed : range.WellFormed
  length : axes.length = index.length
  dims : axes.IsPrefix range.space.dims
  params : range.space.params = domain.space.params
  fresh : ∀ a ∈ axes, a ∉ domain.space.names
  reached : ∀ ρ, domain.Mem ρ → ∃ σ, (∀ x ∈ domain.space.names, σ x = ρ x) ∧ range.Mem σ ∧
    index.map (value ρ) = axes.map fun a => some (σ a)
  comes : ∀ σ, range.Mem σ → ∃ ρ, (∀ x ∈ range.space.names, ρ x = σ x) ∧ domain.Mem ρ ∧
    index.map (value ρ) = axes.map fun a => some (σ a)

theorem prefix_without {dims gone : List String} (h : axes.IsPrefix dims)
    (hgone : ∀ x ∈ gone, x ∉ axes) :
    axes.IsPrefix (dims.filter fun d => !gone.contains d) := by
  have haxes : (axes.filter fun d => !gone.contains d) = axes := by
    refine List.filter_eq_self.mpr fun a ha => ?_
    simpa using fun hmem => hgone a hmem ha
  rw [← haxes]
  exact h.filter _

theorem accessRange_spec (hd : domain.WellFormed)
    (h : accessRange domain index = .ok (some range)) :
    ∃ axes, IsImage domain index range axes := by
  obtain ⟨o, ho, h⟩ := bind_eq_ok.mp h
  cases o with
  | none => cases h
  | some p =>
  obtain ⟨found, state⟩ := p
  simp only [bind_eq_ok, map_eq_ok] at h
  obtain ⟨lifted, hlifted, start, hstart, s, hs, t, ht, h⟩ := h
  cases h
  have hax := lowerIndices_spec Sound.start ho
  obtain ⟨rfl, hdistinct⟩ := Space.ofNames_eq_ok hlifted
  obtain ⟨hswf, hsspace, hsmem⟩ := IntegerSet.intersect_spec (.univ hdistinct) hd hstart
  obtain ⟨hwf, hspace, hmem⟩ := IntegerSet.addConstraints_spec (V := (· ∈ state.taken)) hswf
    (List.forall_mem_append.mpr ⟨List.forall_mem_map.mpr hax.constraints, hax.sound.constraints⟩) hs
  obtain ⟨gone, hgone, hrwf, hrspace, hrmem⟩ := eliminateExact_spec hwf ht
  have hmem' (σ : String → Int) :
      s.Mem σ ↔ domain.Mem σ ∧ (∀ p ∈ found, p.2.Holds σ) ∧ state.Holds σ := by
    rw [hmem, hsmem, and_iff_right IntegerSet.mem_univ, List.forall_mem_append, List.forall_mem_map]
    exact Iff.rfl
  have haxes : (found.map Prod.fst).IsPrefix s.space.dims := by
    rw [hspace, hsspace]
    exact (List.prefix_append ..).trans Names.prefix_extend
  have hkept : ∀ x ∈ gone, x ∉ found.map Prod.fst := by
    intro x hx
    simpa using (List.mem_filter.mp (hgone x hx)).2
  have hdims : (found.map Prod.fst).IsPrefix range.space.dims := by
    rw [hrspace]
    exact prefix_without haxes hkept
  have hlength : (found.map Prod.fst).length = index.length := by
    rw [List.length_map, hax.length]
  have hparams : range.space.params = domain.space.params := by
    have hs' : s.space.params = domain.space.params := by
      rw [hspace, hsspace]
      exact Space.params_align_of_eq hdistinct hd.distinct rfl
    rw [hrspace, Space.params_without, hs']
    intro x hx hxp
    exact (Space.distinct_iff.mp hwf.distinct).2.2 x hxp (List.mem_filter.mp (hgone x hx)).1
  refine ⟨found.map Prod.fst, hrwf, hlength, hdims, hparams, List.forall_mem_map.mpr hax.fresh,
    ?_, ?_⟩
  · intro ρ hρ
    obtain ⟨σ, hσ, hstate, hfound⟩ := hax.exists_holds ρ start_holds
    have hσmem : s.Mem σ := (hmem' σ).mpr ⟨(hd.mem_congr hσ).mpr hρ, hfound, hstate⟩
    refine ⟨σ, hσ, (hrmem σ).mpr ⟨σ, fun _ _ => rfl, hσmem⟩, ?_⟩
    rw [List.map_map]
    refine Eq.trans (List.map_congr_left fun x hx => ?_) (hax.value σ hstate hfound)
    exact value_congr x fun y hy => (hσ y (hax.reads x hx y hy)).symm
  · intro σ hσ
    -- Only names that are no longer in the range are reassigned, so the axes keep their values.
    obtain ⟨ρ, hρ, hρmem⟩ := (hrmem σ).mp hσ
    obtain ⟨hdomain, hfound, hstate⟩ := (hmem' ρ).mp hρmem
    have hagree : ∀ x ∈ range.space.names, ρ x = σ x := by
      intro x hx
      rw [hrspace, Space.mem_names_without] at hx
      exact hρ x hx.2
    refine ⟨ρ, hagree, hdomain, ?_⟩
    rw [hax.value ρ hstate hfound, List.map_map]
    refine List.map_congr_left fun p hp => congrArg some (hagree p.1 ?_)
    exact List.mem_append_right _ (hdims.subset (List.mem_map_of_mem hp))

end LoopAudit.Expr
