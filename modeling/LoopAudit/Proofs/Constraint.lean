import LoopAudit.Proofs.NormalForm

/-! Constraints built from forms and from other constraints: comparisons, congruences,
substitutions, and the alternatives that say the opposite. -/

namespace LoopAudit.Constraint

open Function Fallible

variable {V W : String → Prop} {c d : Constraint} {e f : Affine} {x : String} {m r v : Int}
  {ρ σ : String → Int}

theorem holds_congr (hc : c.WellFormed V) (hρ : ∀ x, V x → ρ x = σ x) : c.Holds ρ ↔ c.Holds σ := by
  rw [Holds, Holds, hc.form.eval_congr hρ]

theorem eq_holds_iff : (eq e).Holds ρ ↔ e.eval ρ = 0 := Iff.rfl

theorem ge_holds_iff : (ge e).Holds ρ ↔ 0 ≤ e.eval ρ := Iff.rfl

theorem divisible_spec (he : e.Over V) (h : divisible e m = .ok c) :
    c.WellFormed V ∧ ∀ ρ, c.Holds ρ ↔ m ∣ e.eval ρ := by
  obtain ⟨k, hk, h⟩ := bind_eq_ok.mp h
  obtain ⟨-, rfl⟩ := exact_eq_ok_iff.mp hk
  cases h
  split_ifs with hm
  · have hzero : m = 0 := Int.natAbs_eq_zero.mp (Int.natCast_eq_zero.mp hm)
    refine ⟨.eq he, fun ρ => ?_⟩
    rw [eq_holds_iff, hzero, zero_dvd_iff]
  · refine ⟨⟨he, fun k hk => ?_⟩, fun ρ => Int.natAbs_dvd⟩
    cases hk
    exact lt_of_le_of_ne (Int.natCast_nonneg _) (Ne.symm hm)

theorem le_spec (he : e.Over V) (hf : f.Over V) (h : le e f = .ok c) :
    c.WellFormed V ∧ ∀ ρ, c.Holds ρ ↔ e.eval ρ ≤ f.eval ρ := by
  obtain ⟨g, hg, h⟩ := bind_eq_ok.mp h
  cases h
  obtain ⟨hover, heval⟩ := Affine.sub_spec hf he hg
  refine ⟨.ge hover, fun ρ => ?_⟩
  rw [ge_holds_iff, heval, sub_nonneg]

theorem lt_spec (he : e.Over V) (hf : f.Over V) (h : lt e f = .ok c) :
    c.WellFormed V ∧ ∀ ρ, c.Holds ρ ↔ e.eval ρ < f.eval ρ := by
  obtain ⟨g, hg, h⟩ := bind_eq_ok.mp h
  obtain ⟨g', hg', h⟩ := bind_eq_ok.mp h
  cases h
  obtain ⟨hover, heval⟩ := Affine.sub_spec hf he hg
  obtain ⟨hover', heval'⟩ := Affine.addConstant_spec hover hg'
  refine ⟨.ge hover', fun ρ => ?_⟩
  rw [ge_holds_iff, heval', heval]
  omega

theorem equal_spec (he : e.Over V) (hf : f.Over V) (h : equal e f = .ok c) :
    c.WellFormed V ∧ ∀ ρ, c.Holds ρ ↔ e.eval ρ = f.eval ρ := by
  obtain ⟨g, hg, h⟩ := bind_eq_ok.mp h
  cases h
  obtain ⟨hover, heval⟩ := Affine.sub_spec he hf hg
  refine ⟨.eq hover, fun ρ => ?_⟩
  rw [eq_holds_iff, heval, sub_eq_zero]

theorem substitute_spec (hc : c.WellFormed V) (hf : f.Over W) (hVW : ∀ y, V y → y ≠ x → W y)
    (h : c.substitute x f = .ok d) :
    d.WellFormed W ∧ d.relation = c.relation ∧
      ∀ ρ, d.Holds ρ ↔ c.Holds (update ρ x (f.eval ρ)) := by
  obtain ⟨g, hg, h⟩ := bind_eq_ok.mp h
  cases h
  obtain ⟨hover, heval⟩ := Affine.substitute_spec hc.form hf hVW hg
  refine ⟨⟨hover, hc.modulus_pos⟩, rfl, fun ρ => ?_⟩
  rw [Holds, Holds, heval]

theorem coeff_substitute (hc : c.WellFormed V) (hf : f.Over W) (hVW : ∀ y, V y → y ≠ x → W y)
    (h : c.substitute x f = .ok d) : d.form.coeff x = c.form.coeff x * f.coeff x := by
  obtain ⟨g, hg, h⟩ := bind_eq_ok.mp h
  cases h
  exact Affine.coeff_substitute hc.form hf hVW hg

theorem substituteValue_spec (hc : c.WellFormed V) (h : c.substituteValue x v = .ok d) :
    d.WellFormed (fun y => V y ∧ y ≠ x) ∧ ∀ ρ, d.Holds ρ ↔ c.Holds (update ρ x v) := by
  obtain ⟨hd, -, hholds⟩ := substitute_spec (W := fun y => V y ∧ y ≠ x) hc (.const v)
    (fun _ hy hne => ⟨hy, hne⟩) h
  exact ⟨hd, hholds⟩

theorem mem_nonzeroResidues : r ∈ nonzeroResidues m ↔ 0 < r ∧ r < m := by
  rw [nonzeroResidues, List.mem_map]
  constructor
  · rintro ⟨k, hk, rfl⟩
    rw [List.mem_range] at hk
    omega
  · rintro ⟨hr, hrm⟩
    exact ⟨(r - 1).toNat, List.mem_range.mpr (by omega), by omega⟩

theorem exists_residue_iff (hm : 0 < m) : (∃ r, (0 < r ∧ r < m) ∧ m ∣ v - r) ↔ ¬ m ∣ v := by
  constructor
  · rintro ⟨r, ⟨hr, hrm⟩, hdvd⟩ hv
    have hmr : m ∣ r := (dvd_sub_right hv).mp hdvd
    exact absurd (Int.le_of_dvd hr hmr) (not_le.mpr hrm)
  · intro hv
    have hne : v % m ≠ 0 := fun h => hv (Int.dvd_of_emod_eq_zero h)
    exact ⟨v % m, ⟨lt_of_le_of_ne (Int.emod_nonneg v hm.ne') (Ne.symm hne),
      Int.emod_lt_of_pos v hm⟩, Int.dvd_self_sub_emod⟩

theorem nonzeroResidues_sorted : (nonzeroResidues m).Pairwise (· < ·) := by
  rw [nonzeroResidues, List.pairwise_map]
  exact List.pairwise_lt_range.imp fun h => by omega

theorem negate_cases {ds : List Constraint} (hc : c.WellFormed V) (h : c.negate = .ok ds) :
    (c.relation = .ge ∧ ∃ low, ds = [low] ∧ low.WellFormed V ∧
      ∀ ρ, low.Holds ρ ↔ c.form.eval ρ < 0) ∨
    (c.relation = .eq ∧ ∃ high low, ds = [high, low] ∧ high.WellFormed V ∧ low.WellFormed V ∧
      (∀ ρ, high.Holds ρ ↔ 0 < c.form.eval ρ) ∧ ∀ ρ, low.Holds ρ ↔ c.form.eval ρ < 0) ∨
    ∃ (m : Int) (f : Int → Except SetError Constraint), c.relation = .mod m ∧
      (nonzeroResidues m).mapM f = .ok ds ∧
      ∀ r d, f r = .ok d → d.WellFormed V ∧ ∀ ρ, d.Holds ρ ↔ m ∣ c.form.eval ρ - r := by
  obtain ⟨e', he', h⟩ := bind_eq_ok.mp h
  obtain ⟨below, hbelow, h⟩ := bind_eq_ok.mp h
  obtain ⟨hneg, hevalNeg⟩ := Affine.neg_spec hc.form he'
  obtain ⟨hover, heval⟩ := Affine.addConstant_spec hneg hbelow
  have hlow (ρ : String → Int) : (ge below).Holds ρ ↔ c.form.eval ρ < 0 := by
    rw [ge_holds_iff, heval, hevalNeg]
    omega
  split at h
  · next hr =>
    cases h
    exact .inl ⟨hr, _, rfl, .ge hover, hlow⟩
  · next hr =>
    obtain ⟨above, habove, h⟩ := bind_eq_ok.mp h
    cases h
    obtain ⟨hover', heval'⟩ := Affine.addConstant_spec hc.form habove
    have hhigh (ρ : String → Int) : (ge above).Holds ρ ↔ 0 < c.form.eval ρ := by
      rw [ge_holds_iff, heval']
      omega
    exact .inr (.inl ⟨hr, _, _, rfl, .ge hover', .ge hover, hhigh, hlow⟩)
  · next m hr =>
    split_ifs at h
    refine .inr (.inr ⟨m, _, hr, h, fun r d hd => ?_⟩)
    obtain ⟨g, hg, hd⟩ := bind_eq_ok.mp hd
    cases hd
    obtain ⟨hover', heval'⟩ := Affine.addConstant_spec hc.form hg
    refine ⟨⟨hover', fun k hk => hc.modulus_pos k (hr.trans hk)⟩, fun ρ => ?_⟩
    rw [Holds, heval', ← sub_eq_add_neg]
    exact Iff.rfl

theorem negate_spec {ds : List Constraint} (hc : c.WellFormed V) (h : c.negate = .ok ds) :
    (∀ d ∈ ds, d.WellFormed V) ∧ ∀ ρ, (∃ d ∈ ds, d.Holds ρ) ↔ ¬ c.Holds ρ := by
  obtain ⟨hr, low, rfl, hwf, hlow⟩ | ⟨hr, high, low, rfl, hwf, hwf', hhigh, hlow⟩ |
    ⟨m, f, hr, h, hf⟩ := negate_cases hc h
  · refine ⟨by simpa using hwf, fun ρ => ?_⟩
    rw [Holds, hr]
    simpa [Relation.Holds] using hlow ρ
  · refine ⟨by simpa using ⟨hwf, hwf'⟩, fun ρ => ?_⟩
    simp only [List.mem_cons, List.not_mem_nil, or_false, exists_eq_or_imp, exists_eq_left, hhigh,
      hlow]
    rw [Holds, hr]
    change _ ↔ ¬ c.form.eval ρ = 0
    omega
  · refine ⟨fun d hd => ?_, fun ρ => ?_⟩
    · obtain ⟨r, -, hrd⟩ := exists_of_mapM_mem h hd
      exact (hf r d hrd).1
    · have hiff : c.Holds ρ ↔ m ∣ c.form.eval ρ := by rw [Holds, hr]; exact Iff.rfl
      rw [hiff, ← exists_residue_iff (hc.modulus_pos m hr)]
      constructor
      · rintro ⟨d, hd, hdρ⟩
        obtain ⟨r, hmem, hrd⟩ := exists_of_mapM_mem h hd
        exact ⟨r, mem_nonzeroResidues.mp hmem, ((hf r d hrd).2 ρ).mp hdρ⟩
      · rintro ⟨r, hmem, hdvd⟩
        obtain ⟨d, hd, hrd⟩ := exists_mapM_mem h (mem_nonzeroResidues.mpr hmem)
        exact ⟨d, hd, ((hf r d hrd).2 ρ).mpr hdvd⟩

theorem negate_apart {ds : List Constraint} (hc : c.WellFormed V) (h : c.negate = .ok ds) :
    ds.Pairwise fun d d' => ∀ ρ, d.Holds ρ → ¬ d'.Holds ρ := by
  obtain ⟨-, low, rfl, -⟩ | ⟨-, high, low, rfl, -, -, hhigh, hlow⟩ | ⟨m, f, -, h, hf⟩ :=
    negate_cases hc h
  · exact List.pairwise_singleton ..
  · refine List.pairwise_pair.mpr fun ρ hhighρ hlowρ => ?_
    exact lt_asymm ((hhigh ρ).mp hhighρ) ((hlow ρ).mp hlowρ)
  · refine mapM_pairwise (fun r hr r' hr' d d' hlt hd hd' ρ hdρ hdρ' => ?_) nonzeroResidues_sorted h
    -- The difference of two residues is too small to be a multiple of the modulus.
    have hdvd : m ∣ r' - r := by
      have hsub := dvd_sub (((hf r d hd).2 ρ).mp hdρ) (((hf r' d' hd').2 ρ).mp hdρ')
      rwa [sub_sub_sub_cancel_left] at hsub
    have hle := Int.le_of_dvd (sub_pos.mpr hlt) hdvd
    have hpos := (mem_nonzeroResidues.mp hr).1
    have hltm := (mem_nonzeroResidues.mp hr').2
    omega

end LoopAudit.Constraint
