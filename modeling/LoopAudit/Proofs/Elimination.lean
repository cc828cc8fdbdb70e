import LoopAudit.System.Elimination
import LoopAudit.Proofs.Constraint
import LoopAudit.Proofs.System

/-! Elimination through an equality, and the rational shadow. An equality eliminates a name exactly:
the divisibility that it leaves behind says that the name has an integer value. The shadow contains
the projection. -/

namespace LoopAudit.System

open Function Fallible

variable {V : String → Prop} {s t others : System} {c d : Constraint} {e l u : Affine} {x : String}
  {o : Option System} {ρ : String → Int}

def Avoiding (V : String → Prop) (x : String) : String → Prop := fun y => V y ∧ y ≠ x

theorem WellFormed.holds_update_iff (hs : s.WellFormed (Avoiding V x)) {v : Int} :
    s.Holds (update ρ x v) ↔ s.Holds ρ :=
  hs.holds_congr fun _ hy => update_of_ne hy.2 v ρ

theorem WellFormed.avoid (hs : s.WellFormed V) (hx : ∀ c ∈ s, x ∉ c.form.vars) :
    s.WellFormed (Avoiding V x) := by
  refine ⟨fun c hc => ⟨⟨?_, (hs.normal c hc).modulus_pos⟩, (hs.normal c hc).fixed⟩, hs.apart⟩
  exact (hs.normal c hc).form.avoid (Affine.coeff_eq_zero (hx c hc))

theorem mentions_iff : s.mentions x = true ↔ ∃ c ∈ s, x ∈ c.form.vars := by
  simp [mentions, Affine.mentions_iff]

theorem pivot_candidate_iff :
    (c.isEquality && c.form.mentions x) = true ↔ c.relation = .eq ∧ x ∈ c.form.vars := by
  simp [Constraint.isEquality, Affine.mentions_iff]

theorem pivot?_eq_none (h : s.pivot? x = none) : ∀ c ∈ s, c.relation = .eq → x ∉ c.form.vars := by
  induction s with
  | nil => nofun
  | cons a s ih =>
    unfold pivot? at h
    cases hs : pivot? x s with
    | none =>
      simp only [hs] at h
      split_ifs at h with hcand
      refine List.forall_mem_cons.mpr ⟨fun hr hx => hcand (pivot_candidate_iff.mpr ⟨hr, hx⟩), ih hs⟩
    | some p =>
      simp only [hs] at h
      split_ifs at h

theorem pivot?_eq_some (h : s.pivot? x = some (e, others)) :
    .eq e ∈ s ∧ x ∈ e.vars ∧ (∀ c ∈ others, c ∈ s) ∧
      ∀ ρ, s.Holds ρ ↔ e.eval ρ = 0 ∧ others.Holds ρ := by
  induction s generalizing e others with
  | nil => cases h
  | cons a s ih =>
    have hhead (hcand : (a.isEquality && a.form.mentions x) = true) :
        .eq a.form ∈ a :: s ∧ x ∈ a.form.vars ∧ (∀ c ∈ s, c ∈ a :: s) ∧
          ∀ ρ, Holds (a :: s) ρ ↔ a.form.eval ρ = 0 ∧ Holds s ρ := by
      obtain ⟨hr, hx⟩ := pivot_candidate_iff.mp hcand
      have ha : a = .eq a.form := by rw [Constraint.eq, ← hr]
      refine ⟨ha ▸ List.mem_cons_self .., hx, fun c => List.mem_cons_of_mem _, fun ρ => ?_⟩
      rw [Holds, List.forall_mem_cons, Constraint.Holds, hr]
      exact Iff.rfl
    unfold pivot? at h
    cases hs : pivot? x s with
    | none =>
      simp only [hs] at h
      split_ifs at h with hcand
      cases h
      exact hhead hcand
    | some p =>
      obtain ⟨e', others'⟩ := p
      simp only [hs] at h
      split_ifs at h with hcand
      · cases h
        exact hhead (Bool.and_eq_true_iff.mp hcand).1
      · cases h
        obtain ⟨he, hx, hsub, hholds⟩ := ih hs
        refine ⟨List.mem_cons_of_mem _ he, hx, ?_, fun ρ => ?_⟩
        · exact List.forall_mem_cons.mpr
            ⟨List.mem_cons_self .., fun c hc => List.mem_cons_of_mem _ (hsub c hc)⟩
        · rw [Holds, List.forall_mem_cons, Holds, List.forall_mem_cons, and_left_comm]
          exact and_congr_right fun _ => hholds ρ

theorem cancel_spec (he : e.Over V) (ha : e.coeff x ≠ 0) (hc : c.WellFormed V)
    (h : cancel e x c = .ok d) :
    d.WellFormed (Avoiding V x) ∧ (e.eval ρ = 0 → (d.Holds ρ ↔ c.Holds ρ)) := by
  unfold cancel at h
  simp only at h
  split_ifs at h with hb
  · cases h
    exact ⟨⟨hc.form.avoid hb, hc.modulus_pos⟩, fun _ => Iff.rfl⟩
  · obtain ⟨left, hleft, h⟩ := bind_eq_ok.mp h
    obtain ⟨right, hright, h⟩ := bind_eq_ok.mp h
    obtain ⟨combined, hcombined, h⟩ := bind_eq_ok.mp h
    obtain ⟨hoverL, hevalL⟩ := Affine.scale_spec hc.form hleft
    obtain ⟨hoverR, hevalR⟩ := Affine.scale_spec he hright
    obtain ⟨hover, heval⟩ := Affine.sub_spec hoverL hoverR hcombined
    have hcoeff : combined.coeff x = 0 := by
      rw [Affine.coeff_of_eval hover.canonical hc.form.canonical he.canonical
        (a := (e.coeff x).natAbs) (b := -(c.form.coeff x * (e.coeff x).sign)) (k := 0)
        fun ρ => by rw [heval, hevalL, hevalR]; ring]
      have hsign : (e.coeff x).sign * e.coeff x = (e.coeff x).natAbs :=
        Int.sign_mul_self_eq_natAbs _
      rw [← hsign]
      ring
    have hpos : (0 : Int) < (e.coeff x).natAbs := Int.natCast_pos.mpr (Int.natAbs_pos.mpr ha)
    have hover' : combined.Over (Avoiding V x) := hover.avoid hcoeff
    -- Where the pivot is zero, cancelling multiplies the form by a positive factor.
    have hscaled (h0 : e.eval ρ = 0) : combined.eval ρ = (e.coeff x).natAbs * c.form.eval ρ := by
      rw [heval, hevalL, hevalR, h0, mul_zero, sub_zero]
    split at h
    · next hr =>
      cases h
      refine ⟨.eq hover', fun h0 => ?_⟩
      rw [Constraint.eq_holds_iff, hscaled h0, Constraint.Holds, hr, mul_eq_zero,
        or_iff_right hpos.ne']
      exact Iff.rfl
    · next hr =>
      cases h
      refine ⟨.ge hover', fun h0 => ?_⟩
      rw [Constraint.ge_holds_iff, hscaled h0, Constraint.Holds, hr,
        mul_nonneg_iff_of_pos_left hpos]
      exact Iff.rfl
    · next m hr =>
      obtain ⟨k, hk, h⟩ := bind_eq_ok.mp h
      obtain ⟨-, rfl⟩ := exact_eq_ok_iff.mp hk
      obtain ⟨hd, hholds⟩ := Constraint.divisible_spec hover' h
      refine ⟨hd, fun h0 => ?_⟩
      rw [hholds, hscaled h0, Constraint.Holds, hr, mul_comm m, mul_dvd_mul_iff_left hpos.ne']
      exact Iff.rfl

theorem exists_root_iff (he : e.Canonical) :
    (∃ v, e.eval (update ρ x v) = 0) ↔ e.coeff x ∣ e.eval (update ρ x 0) := by
  constructor
  · rintro ⟨v, hv⟩
    rw [Affine.eval_update_eq he] at hv
    refine (Int.dvd_add_right (dvd_mul_right (e.coeff x) v)).mp ?_
    rw [hv]
    exact dvd_zero _
  · rintro ⟨q, hq⟩
    refine ⟨-q, ?_⟩
    rw [Affine.eval_update_eq he, hq]
    ring

theorem cancelEach_describes (he : e.Over V) (ha : e.coeff x ≠ 0)
    (hothers : ∀ c ∈ others, c.WellFormed V) (hs : s.WellFormed (Avoiding V x))
    (hroot : ∀ ρ, s.Holds ρ ↔ ∃ v, e.eval (update ρ x v) = 0)
    (h : insertEach (cancel e x) s others = .ok o) :
    Describes (Avoiding V x)
      (fun ρ => ∃ v, e.eval (update ρ x v) = 0 ∧ others.Holds (update ρ x v)) o.toList := by
  have hwf : ∀ c ∈ others, ∀ d, cancel e x c = .ok d → d.WellFormed (Avoiding V x) :=
    fun c hc d hd => (cancel_spec (ρ := fun _ => 0) he ha (hothers c hc) hd).1
  have ht := insertEach_wellFormed hs hwf h
  have hiff {σ : String → Int} (h0 : e.eval σ = 0) :
      (∃ t, o = some t ∧ t.Holds σ) ↔ s.Holds σ ∧ others.Holds σ :=
    insertEach_holds_iff hs hwf h fun c hc d hd => (cancel_spec he ha (hothers c hc) hd).2 h0
  refine ⟨fun t ho => ht t (Option.mem_toList.mp ho), fun ρ => ?_⟩
  simp only [Option.mem_toList]
  constructor
  · rintro ⟨t, rfl, htρ⟩
    have hsρ : s.Holds ρ := by
      refine ((insertEach_holds_iff hs hwf h (P := fun c => ∀ d, cancel e x c = .ok d → d.Holds ρ)
        fun c hc d hd => ?_).mp ⟨t, rfl, htρ⟩).1
      exact ⟨fun hdρ d' hd' => Except.ok.inj (hd.symm.trans hd') ▸ hdρ, fun hall => hall d hd⟩
    obtain ⟨v, hv⟩ := (hroot ρ).mp hsρ
    refine ⟨v, hv, ((hiff hv).mp ⟨t, rfl, ?_⟩).2⟩
    exact (ht t rfl).holds_update_iff.mpr htρ
  · rintro ⟨v, hv, hothersρ⟩
    have hsρ : s.Holds (update ρ x v) := hs.holds_update_iff.mpr ((hroot ρ).mpr ⟨v, hv⟩)
    obtain ⟨t, ho, htρ⟩ := (hiff hv).mpr ⟨hsρ, hothersρ⟩
    exact ⟨t, ho, (ht t ho).holds_update_iff.mp htρ⟩

theorem eliminateByEquality_describes (he : e.Over V) (hx : x ∈ e.vars)
    (hothers : ∀ c ∈ others, c.WellFormed V) (h : eliminateByEquality e others x = .ok o) :
    Describes (Avoiding V x)
      (fun ρ => ∃ v, e.eval (update ρ x v) = 0 ∧ others.Holds (update ρ x v)) o.toList := by
  have ha : e.coeff x ≠ 0 := he.canonical.mem_vars_iff.mp hx
  unfold eliminateByEquality at h
  simp only at h
  split_ifs at h with hunit
  · obtain ⟨g, hg, h⟩ := bind_eq_ok.mp h
    obtain ⟨c, hc, h⟩ := bind_eq_ok.mp h
    obtain ⟨hover, heval⟩ := Affine.substituteValue_spec he hg
    obtain ⟨hcwf, hcholds⟩ := Constraint.divisible_spec hover hc
    have hroot (ρ : String → Int) : c.Holds ρ ↔ ∃ v, e.eval (update ρ x v) = 0 := by
      rw [hcholds, heval, exists_root_iff he.canonical]
    obtain ⟨u, hu, h⟩ := bind_eq_ok.mp h
    have hins (ρ : String → Int) := insert_holds_iff (ρ := ρ) (.nil (V := Avoiding V x)) hcwf hu
    cases u with
    | none =>
      cases h
      refine .nil fun ρ => ?_
      rintro ⟨v, hv, -⟩
      obtain ⟨t, ht, -⟩ := (hins ρ).mpr ⟨(hroot ρ).mpr ⟨v, hv⟩, nofun⟩
      cases ht
    | some t =>
      refine cancelEach_describes he ha hothers (insert_wellFormed .nil hcwf hu) (fun ρ => ?_) h
      rw [← hroot]
      have hρ := hins ρ
      simp only [Option.some.injEq, exists_eq_left'] at hρ
      exact hρ.trans (and_iff_left nofun)
  · refine cancelEach_describes he ha hothers .nil (fun ρ => ?_) h
    have hone : (e.coeff x).natAbs = 1 :=
      le_antisymm (not_lt.mp hunit) (Int.natAbs_pos.mpr ha)
    rw [exists_root_iff he.canonical]
    exact iff_of_true nofun ((Int.natAbs_dvd_natAbs.mp (hone ▸ one_dvd _)))

theorem eliminatePivot_describes (hs : ∀ c ∈ s, c.WellFormed V)
    (hpivot : s.pivot? x = some (e, others)) (h : eliminateByEquality e others x = .ok o) :
    Describes (Avoiding V x) (fun ρ => ∃ v, s.Holds (update ρ x v)) o.toList := by
  obtain ⟨he, hx, hsub, hholds⟩ := pivot?_eq_some hpivot
  have hothers : ∀ c ∈ others, c.WellFormed V := fun c hc => hs c (hsub c hc)
  refine (eliminateByEquality_describes (hs _ he).form hx hothers h).congr fun ρ => ?_
  exact exists_congr fun v => (hholds _).symm

theorem mem_inequalities {P : Affine → Prop} [DecidablePred P] :
    l ∈ (s.filter fun c => c.relation == .ge && decide (P c.form)).map (·.form) ↔
      .ge l ∈ s ∧ P l := by
  simp only [List.mem_map, List.mem_filter, Bool.and_eq_true, beq_iff_eq, decide_eq_true_eq]
  constructor
  · rintro ⟨⟨r, f⟩, ⟨hc, hr, hf⟩, rfl⟩
    cases hr
    exact ⟨hc, hf⟩
  · rintro ⟨hc, hl⟩
    exact ⟨.ge l, ⟨hc, rfl, hl⟩, rfl⟩

theorem mem_lowerBounds : l ∈ s.lowerBounds x ↔ .ge l ∈ s ∧ 0 < l.coeff x :=
  mem_inequalities (P := fun f => 0 < f.coeff x)

theorem mem_upperBounds : u ∈ s.upperBounds x ↔ .ge u ∈ s ∧ u.coeff x < 0 :=
  mem_inequalities (P := fun f => f.coeff x < 0)

theorem mem_free : c ∈ s.free x ↔ c ∈ s ∧ c.form.coeff x = 0 := by
  simp [free]

theorem mem_pairs {lower upper : List Affine} {b : Affine × Affine} :
    b ∈ pairs lower upper ↔ b.1 ∈ lower ∧ b.2 ∈ upper := by
  simp only [pairs, List.mem_flatMap, List.mem_map]
  constructor
  · rintro ⟨l, hl, u, hu, rfl⟩
    exact ⟨hl, hu⟩
  · rintro ⟨hl, hu⟩
    exact ⟨b.1, hl, b.2, hu, rfl⟩

theorem free_wellFormed (hs : ∀ c ∈ s, c.WellFormed V) :
    ∀ c ∈ s.free x, c.WellFormed (Avoiding V x) := by
  intro c hc
  obtain ⟨hc, hzero⟩ := mem_free.mp hc
  exact ⟨(hs c hc).form.avoid hzero, (hs c hc).modulus_pos⟩

theorem lowerBounds_over (hs : ∀ c ∈ s, c.WellFormed V) : ∀ l ∈ s.lowerBounds x, l.Over V :=
  fun _ hl => (hs _ (mem_lowerBounds.mp hl).1).form

theorem upperBounds_over (hs : ∀ c ∈ s, c.WellFormed V) : ∀ u ∈ s.upperBounds x, u.Over V :=
  fun _ hu => (hs _ (mem_upperBounds.mp hu).1).form

/-- With `a·x + l ≥ 0` and `-b·x + u ≥ 0`, the value `b·l + a·u`. -/
def pairValue (x : String) (l u : Affine) (ρ : String → Int) : Int :=
  -(u.coeff x) * l.eval (update ρ x 0) + l.coeff x * u.eval (update ρ x 0)

theorem pairValue_nonneg (hl : l.Canonical) (hu : u.Canonical) (ha : 0 < l.coeff x)
    (hb : u.coeff x < 0) (hlρ : 0 ≤ l.eval ρ) (huρ : 0 ≤ u.eval ρ) : 0 ≤ pairValue x l u ρ := by
  have hlx := Affine.eval_update_eq (ρ := ρ) (x := x) (v := ρ x) hl
  have hux := Affine.eval_update_eq (ρ := ρ) (x := x) (v := ρ x) hu
  rw [update_eq_self] at hlx hux
  have hsum : pairValue x l u ρ = -(u.coeff x) * l.eval ρ + l.coeff x * u.eval ρ := by
    rw [pairValue, hlx, hux]
    ring
  rw [hsum]
  exact add_nonneg (mul_nonneg (neg_nonneg.mpr hb.le) hlρ) (mul_nonneg ha.le huρ)

theorem realPair_spec (hl : l.Over V) (hu : u.Over V) (h : realPair x (l, u) = .ok c) :
    ∃ g : Affine, c = .ge g ∧ g.Over (Avoiding V x) ∧ ∀ ρ, g.eval ρ = pairValue x l u ρ := by
  obtain ⟨left, hleft, h⟩ := bind_eq_ok.mp h
  obtain ⟨right, hright, h⟩ := bind_eq_ok.mp h
  obtain ⟨g, hg, h⟩ := bind_eq_ok.mp h
  cases h
  obtain ⟨hoverL, hevalL⟩ := Affine.scale_spec hl hleft
  obtain ⟨hoverR, hevalR⟩ := Affine.scale_spec hu hright
  obtain ⟨hover, heval⟩ := Affine.add_spec hoverL hoverR hg
  have hcoeff : g.coeff x = 0 := by
    rw [Affine.coeff_of_eval hover.canonical hl.canonical hu.canonical (k := 0)
      fun ρ => by rw [heval, hevalL, hevalR, add_zero]]
    ring
  refine ⟨g, rfl, hover.avoid hcoeff, fun ρ => ?_⟩
  have hzero : g.eval ρ = g.eval (update ρ x 0) := by
    rw [Affine.eval_update hover.canonical.nodup, hcoeff, zero_mul, add_zero]
  rw [hzero, heval, hevalL, hevalR, pairValue]

theorem realPair_holds (hl : l.Over V) (hu : u.Over V) (h : realPair x (l, u) = .ok c) :
    c.WellFormed (Avoiding V x) ∧ ∀ ρ, c.Holds ρ ↔ 0 ≤ pairValue x l u ρ := by
  obtain ⟨g, rfl, hg, heval⟩ := realPair_spec hl hu h
  exact ⟨.ge hg, fun ρ => by rw [Constraint.ge_holds_iff, heval]⟩

theorem pairing_describes {f : Affine × Affine → Except SetError Constraint}
    {R : Affine → Affine → (String → Int) → Prop} {rest : System} (hs : ∀ c ∈ s, c.WellFormed V)
    (hf : ∀ l u c, l.Over V → u.Over V → f (l, u) = .ok c →
      c.WellFormed (Avoiding V x) ∧ ∀ ρ, c.Holds ρ ↔ R l u ρ)
    (hrest : ofList? (s.free x) = .ok (some rest))
    (h : insertEach f rest (pairs (s.lowerBounds x) (s.upperBounds x)) = .ok o) :
    Describes (Avoiding V x)
      (fun ρ => (s.free x).Holds ρ ∧ ∀ l ∈ s.lowerBounds x, ∀ u ∈ s.upperBounds x, R l u ρ)
      o.toList := by
  have hfree := ofList?_describes (free_wellFormed (x := x) hs) hrest
  have hpair : ∀ b ∈ pairs (s.lowerBounds x) (s.upperBounds x), ∀ c, f b = .ok c →
      c.WellFormed (Avoiding V x) ∧ ∀ ρ, c.Holds ρ ↔ R b.1 b.2 ρ := by
    intro b hb c hc
    obtain ⟨hl, hu⟩ := mem_pairs.mp hb
    exact hf b.1 b.2 c (lowerBounds_over hs _ hl) (upperBounds_over hs _ hu) hc
  obtain ⟨hrestwf, hrestiff⟩ := hfree.of_some
  have hwf := fun b hb c hc => (hpair b hb c hc).1
  refine ⟨fun t ht => insertEach_wellFormed hrestwf hwf h t (Option.mem_toList.mp ht), fun ρ => ?_⟩
  have hrestρ : rest.Holds ρ ↔ (s.free x).Holds ρ := hrestiff ρ
  simp only [Option.mem_toList]
  rw [insertEach_holds_iff hrestwf hwf h fun b hb c hc => (hpair b hb c hc).2 ρ, hrestρ]
  refine and_congr_right fun _ => ⟨fun hall l hl u hu => hall (l, u) (mem_pairs.mpr ⟨hl, hu⟩),
    fun hall b hb => ?_⟩
  obtain ⟨hl, hu⟩ := mem_pairs.mp hb
  exact hall b.1 hl b.2 hu

theorem free_holds (hρ : s.Holds ρ) : (s.free x).Holds ρ := fun c hc => hρ c (mem_free.mp hc).1

theorem not_free_holds_of_none (hs : ∀ c ∈ s, c.WellFormed V)
    (h : ofList? (s.free x) = .ok none) : ¬ (s.free x).Holds ρ :=
  (ofList?_describes (free_wellFormed (x := x) hs) h).not_of_none

theorem shadow_spec (hs : ∀ c ∈ s, c.WellFormed V) (h : s.shadow x = .ok o) :
    (∀ t, o = some t → t.WellFormed (Avoiding V x)) ∧
      ∀ ρ, s.Holds ρ → ∃ t, o = some t ∧ t.Holds ρ := by
  unfold shadow at h
  split at h
  · next e others hpivot =>
    have hdesc := eliminatePivot_describes hs hpivot h
    refine ⟨fun t ht => hdesc.wellFormed t (Option.mem_toList.mpr ht), fun ρ hρ => ?_⟩
    have hself : ∃ v, s.Holds (update ρ x v) := ⟨ρ x, by rwa [update_eq_self]⟩
    obtain ⟨t, ht, htρ⟩ := (hdesc.holds_iff ρ).mpr hself
    exact ⟨t, Option.mem_toList.mp ht, htρ⟩
  · obtain ⟨_ | rest, hrest, h⟩ := bind_eq_ok.mp h
    · cases h
      exact ⟨nofun, fun ρ hρ => absurd (free_holds hρ) (not_free_holds_of_none hs hrest)⟩
    · have hdesc := pairing_describes hs (fun l u c hl hu hc => realPair_holds hl hu hc) hrest h
      refine ⟨fun t ht => hdesc.wellFormed t (Option.mem_toList.mpr ht), fun ρ hρ => ?_⟩
      have hpairs : ∀ l ∈ s.lowerBounds x, ∀ u ∈ s.upperBounds x, 0 ≤ pairValue x l u ρ := by
        intro l hl u hu
        obtain ⟨hl', ha⟩ := mem_lowerBounds.mp hl
        obtain ⟨hu', hb⟩ := mem_upperBounds.mp hu
        exact pairValue_nonneg (lowerBounds_over hs l hl).canonical
          (upperBounds_over hs u hu).canonical ha hb (hρ _ hl') (hρ _ hu')
      obtain ⟨t, ht, htρ⟩ := (hdesc.holds_iff ρ).mpr ⟨free_holds hρ, hpairs⟩
      exact ⟨t, Option.mem_toList.mp ht, htρ⟩

end LoopAudit.System
