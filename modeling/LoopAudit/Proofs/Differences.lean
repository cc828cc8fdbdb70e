import LoopAudit.Proofs.Projection

/-! Bounds on a name or on the difference of two. Eliminating a name, or giving it a value, leaves
such a system, and since every coefficient is a unit the rational shadow is the projection. -/

namespace LoopAudit.Affine

open Function

variable {e f g : Affine} {x : String} {p q : Option String} {k v : Int} {ρ : String → Int}

def valueAt (ρ : String → Int) (p : Option String) : Int := p.elim 0 ρ

theorem valueAt_update : valueAt (update ρ x v) p = if p = some x then v else valueAt ρ p := by
  cases p with
  | none => simp [valueAt]
  | some y => simp [valueAt, update_apply]

theorem valueAt_zero : valueAt (fun _ => 0) p = 0 := by
  cases p <;> rfl

/-- A name, or zero, less a name, or zero, up to a constant. -/
def IsGap (e : Affine) : Prop := ∃ p q k, ∀ ρ, e.eval ρ = valueAt ρ p - valueAt ρ q + k

namespace IsGap

theorem congr (he : e.IsGap) (h : ∀ ρ, g.eval ρ = e.eval ρ) : g.IsGap := by
  obtain ⟨p, q, k, he⟩ := he
  exact ⟨p, q, k, fun ρ => (h ρ).trans (he ρ)⟩

theorem of_unit {a : Int} (ha : a = 1 ∨ a = -1)
    (h : ∀ ρ, e.eval ρ = a * (valueAt ρ p - valueAt ρ q) + k) : e.IsGap := by
  rcases ha with rfl | rfl
  · exact ⟨p, q, k, fun ρ => by rw [h, one_mul]⟩
  · exact ⟨q, p, k, fun ρ => by rw [h, neg_one_mul, neg_sub]⟩

theorem neg (he : e.IsGap) : (e.map (- ·)).IsGap := by
  obtain ⟨p, q, k, he⟩ := he
  refine .of_unit (.inr rfl) (p := p) (q := q) (k := -k) fun ρ => ?_
  rw [eval_map_neg, he]
  ring

theorem solved (h : e.IsGap) (he : e.Canonical) (hx : e.coeff x ≠ 0) :
    (e.coeff x = 1 ∨ e.coeff x = -1) ∧ ∃ y k, y ≠ some x ∧
      ∀ ρ, e.eval ρ = e.coeff x * (ρ x - valueAt ρ y) + k := by
  obtain ⟨p, q, k, h⟩ := h
  have hcoeff : e.coeff x = (if p = some x then 1 else 0) - if q = some x then 1 else 0 := by
    rw [coeff_eq_eval_sub he, h, h, valueAt_update, valueAt_update, valueAt_zero, valueAt_zero]
    ring
  by_cases hp : p = some x <;> by_cases hq : q = some x
  · simp [hp, hq, hx] at hcoeff
  · rw [if_pos hp, if_neg hq, sub_zero] at hcoeff
    refine ⟨.inl hcoeff, q, k, hq, fun ρ => ?_⟩
    rw [h, hcoeff, hp, one_mul]
    rfl
  · rw [if_neg hp, if_pos hq, zero_sub] at hcoeff
    refine ⟨.inr hcoeff, p, k, hp, fun ρ => ?_⟩
    rw [h, hcoeff, hq, neg_one_mul, neg_sub]
    rfl
  · simp [hp, hq, hx] at hcoeff

theorem cancel (hf : f.IsGap) (he : e.IsGap) (hfc : f.Canonical) (hec : e.Canonical)
    (hx : e.coeff x ≠ 0)
    (hg : ∀ ρ, g.eval ρ = f.eval ρ - f.coeff x * e.coeff x * e.eval ρ) : g.IsGap := by
  by_cases hb : f.coeff x = 0
  · exact hf.congr fun ρ => by rw [hg, hb, zero_mul, zero_mul, sub_zero]
  obtain ⟨ha, y, k, -, he⟩ := he.solved hec hx
  obtain ⟨hb, z, m, -, hf⟩ := hf.solved hfc hb
  have hsq : e.coeff x * e.coeff x = 1 := by rcases ha with ha | ha <;> rw [ha] <;> rfl
  refine .of_unit hb (p := y) (q := z) (k := m - f.coeff x * e.coeff x * k) fun ρ => ?_
  have hscaled : f.coeff x * e.coeff x * (e.coeff x * (ρ x - valueAt ρ y) + k) =
      f.coeff x * (e.coeff x * e.coeff x) * (ρ x - valueAt ρ y) + f.coeff x * e.coeff x * k := by
    ring
  rw [hg, hf, he, hscaled, hsq]
  ring

theorem substituted (he : e.IsGap) (hg : ∀ ρ, g.eval ρ = e.eval (update ρ x v)) : g.IsGap := by
  obtain ⟨p, q, k, he⟩ := he
  have hend (r : Option String) : ∃ r' m, ∀ ρ, valueAt (update ρ x v) r = valueAt ρ r' + m := by
    by_cases hr : r = some x
    · exact ⟨none, v, fun ρ => by rw [valueAt_update, if_pos hr]; exact (zero_add v).symm⟩
    · exact ⟨r, 0, fun ρ => by rw [valueAt_update, if_neg hr, add_zero]⟩
  obtain ⟨p', m, hp⟩ := hend p
  obtain ⟨q', n, hq⟩ := hend q
  refine ⟨p', q', m - n + k, fun ρ => ?_⟩
  rw [hg, he, hp, hq]
  ring

theorem pair (hl : e.IsGap) (hu : f.IsGap) (hlc : e.Canonical) (huc : f.Canonical)
    (ha : 0 < e.coeff x) (hb : f.coeff x < 0)
    (hg : ∀ ρ, g.eval ρ = System.pairValue x e f ρ) : g.IsGap := by
  obtain ⟨hone, y, k, hy, hl⟩ := hl.solved hlc ha.ne'
  obtain ⟨hminus, z, m, hz, hu⟩ := hu.solved huc hb.ne
  have hone : e.coeff x = 1 := hone.resolve_right (by omega)
  have hminus : f.coeff x = -1 := hminus.resolve_left (by omega)
  refine ⟨z, y, k + m, fun ρ => ?_⟩
  rw [hg, System.pairValue, hl, hu, hone, hminus, update_self, valueAt_update, valueAt_update,
    if_neg hy, if_neg hz]
  ring

theorem factor_eq_one (h : e.IsGap) (he : e.Canonical) (hne : e.terms ≠ []) : e.factor = 1 := by
  obtain ⟨t, ht⟩ := List.exists_mem_of_ne_nil _ hne
  have hdvd := factor_dvd ht
  rw [← coeff_of_mem he.nodup ht] at hdvd
  have hx : e.coeff t.1 ≠ 0 := he.mem_vars_iff.mp (List.mem_map_of_mem ht)
  rcases (h.solved he hx).1 with hc | hc <;> rw [hc] at hdvd
  · exact Nat.dvd_one.mp (Int.natCast_dvd_natCast.mp hdvd)
  · exact Nat.dvd_one.mp (Int.natCast_dvd_natCast.mp (Int.dvd_neg.mp hdvd))

end IsGap

end LoopAudit.Affine

namespace LoopAudit.Constraint

variable {V : String → Prop} {c d : Constraint} {x : String} {v : Int}

def IsDifference (c : Constraint) : Prop :=
  c.relation ∈ [Relation.eq, .ge] ∧
    c.form.terms.map Prod.snd ∈ [[1], [-1], [1, -1], [(-1 : Int), 1]]

instance : DecidablePred IsDifference := fun _ => inferInstanceAs (Decidable (_ ∧ _))

structure IsGap (c : Constraint) : Prop where
  relation : c.relation = .eq ∨ c.relation = .ge
  form : c.form.IsGap

theorem IsDifference.isGap (hc : c.IsDifference) : c.IsGap := by
  obtain ⟨r, ⟨ts, k⟩⟩ := c
  obtain ⟨hr, hts⟩ := hc
  refine ⟨by simpa using hr, ?_⟩
  simp only [List.mem_cons, List.not_mem_nil, or_false, List.map_eq_cons_iff,
    List.map_eq_nil_iff] at hts
  obtain ⟨⟨x, a⟩, _, rfl, ha, rfl⟩ | ⟨⟨x, a⟩, _, rfl, ha, rfl⟩ |
    ⟨⟨x, a⟩, _, rfl, ha, ⟨y, b⟩, _, rfl, hb, rfl⟩ |
    ⟨⟨x, a⟩, _, rfl, ha, ⟨y, b⟩, _, rfl, hb, rfl⟩ := hts
  · obtain rfl : a = 1 := ha
    exact ⟨some x, none, k, fun ρ => by simp [Affine.valueAt]⟩
  · obtain rfl : a = -1 := ha
    exact ⟨none, some x, k, fun ρ => by simp [Affine.valueAt]⟩
  · obtain rfl : a = 1 := ha
    obtain rfl : b = -1 := hb
    refine ⟨some x, some y, k, fun ρ => ?_⟩
    simp only [Affine.eval_cons, Affine.eval_nil, Affine.valueAt, Option.elim]
    ring
  · obtain rfl : a = -1 := ha
    obtain rfl : b = 1 := hb
    refine ⟨some y, some x, k, fun ρ => ?_⟩
    simp only [Affine.eval_cons, Affine.eval_nil, Affine.valueAt, Option.elim]
    ring

namespace IsGap

theorem normalize (hc : c.IsGap) (hwf : c.WellFormed V) (h : c.normalize = .ok (.proper d)) :
    d.IsGap := by
  have hne : c.form.terms ≠ [] := terms_ne_nil_of_normalize h
  obtain ⟨r, e⟩ := c
  obtain ⟨hr, he⟩ := hc
  have hmap : e.map (· / (e.factor : Int)) = e := by
    rw [he.factor_eq_one hwf.form.canonical hne]
    exact Affine.map_div_one
  rcases hr with rfl | rfl
  · obtain ⟨-, ⟨-, hcase⟩ | ⟨-, g, hg, -, hcase⟩⟩ :=
      normalizeEq_cases ((normalize_eq_of_terms_ne_nil hne).symm.trans h)
    · cases hcase
    · cases hcase
      rw [hmap] at hg
      refine ⟨.inl rfl, ?_⟩
      rcases hg with rfl | rfl
      · exact he
      · exact he.neg
  · obtain ⟨-, hcase⟩ := normalizeGe_eq_ok.mp ((normalize_ge_of_terms_ne_nil hne).symm.trans h)
    cases hcase
    rw [hmap]
    exact ⟨.inr rfl, he⟩

theorem substituteValue (hc : c.IsGap) (hwf : c.WellFormed V)
    (h : c.substituteValue x v = .ok d) : d.IsGap := by
  obtain ⟨g, hg, h⟩ := Fallible.bind_eq_ok.mp h
  cases h
  exact ⟨hc.relation, hc.form.substituted (Affine.substituteValue_spec hwf.form hg).2⟩

end IsGap

end LoopAudit.Constraint

namespace LoopAudit.System

open Function Fallible

variable {V : String → Prop} {s t others : System} {c d : Constraint} {e : Affine} {x : String}
  {o : Option System} {ρ : String → Int}

def GapsOnly (s : System) : Prop := ∀ c ∈ s, c.IsGap

theorem GapsOnly.nil : GapsOnly [] := fun _ hc => absurd hc List.not_mem_nil

theorem GapsOnly.insertEach {α : Type} {f : α → Except SetError Constraint} {items : List α}
    (hs : GapsOnly s)
    (hf : ∀ a ∈ items, ∀ c, f a = .ok c → c.WellFormed V ∧ c.IsGap)
    (h : insertEach f s items = .ok (some t)) : GapsOnly t := by
  intro d hd
  obtain ⟨a, ha, c, hc, hnorm⟩ | hd := mem_insertEach h hd
  · obtain ⟨hwf, hgap⟩ := hf a ha c hc
    exact hgap.normalize hwf hnorm
  · exact hs d hd

theorem GapsOnly.assign {v : Int} (hgaps : GapsOnly s) (hs : s.WellFormed V)
    (h : s.assign x v = .ok (some t)) : GapsOnly t := by
  refine .insertEach (V := Avoiding V x) .nil (fun c hc d hd => ?_) h
  have hwf := hs.each c hc
  exact ⟨(Constraint.substituteValue_spec hwf hd).1, (hgaps c hc).substituteValue hwf hd⟩

theorem cancel_isGap (he : e.IsGap) (heo : e.Over V) (hx : e.coeff x ≠ 0) (hc : c.IsGap)
    (hwf : c.WellFormed V) (h : cancel e x c = .ok d) : d.IsGap := by
  unfold cancel at h
  simp only at h
  split_ifs at h with hb
  · cases h
    exact hc
  obtain ⟨left, hleft, h⟩ := bind_eq_ok.mp h
  obtain ⟨right, hright, h⟩ := bind_eq_ok.mp h
  obtain ⟨combined, hcombined, h⟩ := bind_eq_ok.mp h
  obtain ⟨hoverL, hevalL⟩ := Affine.scale_spec hwf.form hleft
  obtain ⟨hoverR, hevalR⟩ := Affine.scale_spec heo hright
  obtain ⟨-, heval⟩ := Affine.sub_spec hoverL hoverR hcombined
  have hgap : combined.IsGap := by
    refine hc.form.cancel he hwf.form.canonical heo.canonical hx fun ρ => ?_
    rw [heval, hevalL, hevalR]
    rcases (he.solved heo.canonical hx).1 with ha | ha <;> rw [ha] <;> simp
  rcases hc.relation with hr | hr <;> rw [hr] at h <;> cases h
  · exact ⟨.inl rfl, hgap⟩
  · exact ⟨.inr rfl, hgap⟩

theorem GapsOnly.eliminateByEquality (hgaps : GapsOnly s) (hs : s.WellFormed V)
    (hpivot : s.pivot? x = some (e, others)) (h : eliminateByEquality e others x = .ok (some t)) :
    GapsOnly t := by
  obtain ⟨he, hx, hsub, -⟩ := pivot?_eq_some hpivot
  have heo : e.Over V := (hs.normal _ he).form
  have hcoeff : e.coeff x ≠ 0 := heo.canonical.mem_vars_iff.mp hx
  have hgap : e.IsGap := (hgaps _ he).form
  have hunit : ¬ 1 < (e.coeff x).natAbs := by
    rcases (hgap.solved heo.canonical hcoeff).1 with ha | ha <;> rw [ha] <;> decide
  rw [System.eliminateByEquality, if_neg hunit] at h
  refine .insertEach (V := Avoiding V x) .nil (fun c hc d hd => ?_) h
  have hwf := hs.each c (hsub c hc)
  exact ⟨(cancel_spec (ρ := fun _ => 0) heo hcoeff hwf hd).1,
    cancel_isGap hgap heo hcoeff (hgaps c (hsub c hc)) hwf hd⟩

theorem GapsOnly.shadow (hgaps : GapsOnly s) (hs : s.WellFormed V)
    (h : s.shadow x = .ok (some t)) : GapsOnly t := by
  unfold System.shadow at h
  split at h
  · next e others hpivot => exact hgaps.eliminateByEquality hs hpivot h
  obtain ⟨u, hrest, h⟩ := bind_eq_ok.mp h
  cases u with
  | none => cases h
  | some rest =>
    refine .insertEach (V := Avoiding V x) (fun d hd => ?_) (fun b hb c hc => ?_) h
    · obtain ⟨c, hc, hnorm⟩ := mem_ofList? hrest hd
      exact (hgaps c (mem_free.mp hc).1).normalize (free_wellFormed hs.each c hc) hnorm
    · obtain ⟨hl, hu⟩ := mem_pairs.mp hb
      obtain ⟨hle, hlpos⟩ := mem_lowerBounds.mp hl
      obtain ⟨hue, huneg⟩ := mem_upperBounds.mp hu
      have hlo := lowerBounds_over hs.each _ hl
      have huo := upperBounds_over hs.each _ hu
      obtain ⟨g, rfl, hg, heval⟩ := realPair_spec hlo huo hc
      refine ⟨.ge hg, .inr rfl, ?_⟩
      exact (hgaps _ hle).form.pair (hgaps _ hue).form hlo.canonical huo.canonical hlpos huneg heval

theorem GapsOnly.boundsOnly (hgaps : GapsOnly s) (hs : s.WellFormed V)
    (hpivot : s.pivot? x = none) : BoundsOnly x s := by
  intro c hc hx
  refine (hgaps c hc).relation.resolve_left fun hr => pivot?_eq_none hpivot c hc hr ?_
  exact (hs.normal c hc).form.canonical.mem_vars_iff.mpr hx

theorem GapsOnly.shadow_describes (hgaps : GapsOnly s) (hs : s.WellFormed V)
    (h : s.shadow x = .ok o) :
    Describes (Avoiding V x) (fun ρ => ∃ v, s.Holds (update ρ x v)) o.toList := by
  refine System.shadow_describes hs.each (fun hpivot => ⟨hgaps.boundsOnly hs hpivot, ?_⟩) h
  intro l hl u hu
  obtain ⟨hle, hpos⟩ := mem_lowerBounds.mp hl
  have hunit : l.coeff x = 1 ∨ l.coeff x = -1 :=
    ((hgaps _ hle).form.solved (lowerBounds_over hs.each l hl).canonical hpos.ne').1
  exact .inl (hunit.resolve_right (by omega))

end LoopAudit.System
