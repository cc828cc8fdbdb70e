import Mathlib.Algebra.Ring.Divisibility.Basic
import LoopAudit.Constraint
import LoopAudit.Proofs.Affine

/-! Normal forms of constraints. Where normalising answers, it keeps the integer solutions, decides
the constraints that hold everywhere or nowhere, and leaves a normal form unchanged. It takes the
magnitude of every coefficient, so that all of them have to be words. -/

namespace LoopAudit.Affine

open Fallible

variable {V : String → Prop} {e : Affine} {x : String} {k g m : Int} {d : Nat}
  {ts : List (String × Int)} {ρ : String → Int}

theorem vars_map (f : Int → Int) : (e.map f).vars = e.vars := by
  simp [vars, map, Function.comp_def]

theorem Over.map (he : e.Over V) {f : Int → Int} (hf : ∀ t ∈ e.terms, f t.2 ≠ 0) :
    (e.map f).Over V := by
  refine ⟨⟨?_, fun t ht => ?_⟩, fun x hx => he.within x (vars_map f ▸ hx)⟩
  · change (e.map f).vars.Pairwise (· < ·)
    rw [vars_map]
    exact he.canonical.1
  · obtain ⟨s, hs, rfl⟩ := List.mem_map.mp ht
    exact hf s hs

theorem dvd_foldl_gcd {g : Nat} :
    d ∣ ts.foldl (fun g t => g.gcd t.2.natAbs) g ↔ d ∣ g ∧ ∀ t ∈ ts, (d : Int) ∣ t.2 := by
  induction ts generalizing g with
  | nil => simp
  | cons t ts ih =>
    rw [List.foldl_cons, ih, Nat.dvd_gcd_iff, List.forall_mem_cons, and_assoc,
      Int.natCast_dvd]

def factor (e : Affine) : Nat := e.terms.foldl (fun g t => g.gcd t.2.natAbs) 0

theorem dvd_factor_iff : d ∣ e.factor ↔ ∀ t ∈ e.terms, (d : Int) ∣ t.2 := by
  rw [factor, dvd_foldl_gcd]
  simp

theorem factor_dvd {t : String × Int} (ht : t ∈ e.terms) : (e.factor : Int) ∣ t.2 :=
  dvd_factor_iff.mp (dvd_refl _) t ht

theorem factor_pos (he : e.Canonical) (hne : e.terms ≠ []) : 0 < e.factor := by
  obtain ⟨t, ht⟩ := List.exists_mem_of_ne_nil _ hne
  refine Nat.pos_of_ne_zero fun h0 => he.2 t ht ?_
  have hdvd := factor_dvd ht
  rwa [h0, Nat.cast_zero, zero_dvd_iff] at hdvd

theorem factor_map_neg : (e.map (- ·)).factor = e.factor := by
  refine Nat.dvd_antisymm ?_ ?_ <;> rw [dvd_factor_iff]
  · intro t ht
    have hdvd := factor_dvd (e := e.map (- ·)) (List.mem_map_of_mem ht)
    exact (dvd_neg (b := t.2)).mp hdvd
  · intro t ht
    obtain ⟨s, hs, rfl⟩ := List.mem_map.mp ht
    exact (dvd_neg (b := s.2)).mpr (factor_dvd hs)

theorem mul_dvd_of_dvd_div (hg : ∀ t ∈ e.terms, g ∣ t.2) {b : Int}
    (hb : ∀ t ∈ (e.map (· / g)).terms, b ∣ t.2) : ∀ t ∈ e.terms, g * b ∣ t.2 := by
  intro t ht
  obtain ⟨q, hq⟩ := hg t ht
  by_cases hg0 : g = 0
  · simp [hq, hg0]
  · have hdvd : b ∣ t.2 / g := hb _ (List.mem_map_of_mem ht)
    rw [hq, Int.mul_ediv_cancel_left _ hg0] at hdvd
    rw [hq]
    exact mul_dvd_mul_left g hdvd

theorem factor_map_div (he : e.Canonical) (hne : e.terms ≠ []) :
    (e.map (· / (e.factor : Int))).factor = 1 := by
  have hpos := factor_pos he hne
  have hdvd : e.factor * (e.map (· / (e.factor : Int))).factor ∣ e.factor := by
    rw [dvd_factor_iff, Nat.cast_mul]
    exact mul_dvd_of_dvd_div (fun t => factor_dvd) fun t => factor_dvd
  exact Nat.dvd_one.mp ((Nat.mul_dvd_mul_iff_left hpos).mp (by rwa [mul_one]))

theorem map_div_one : e.map (· / 1) = e := by
  simp [map]

theorem div_ne_zero_of_dvd (he : e.Canonical) (hg : ∀ t ∈ e.terms, g ∣ t.2) :
    ∀ t ∈ e.terms, t.2 / g ≠ 0 := by
  intro t ht h0
  have hzero := Int.eq_mul_of_ediv_eq_right (hg t ht) h0
  exact he.2 t ht (by rw [hzero, mul_zero])

theorem eval_eq_mul_div (hg : ∀ t ∈ e.terms, g ∣ t.2) :
    e.eval ρ = g * (e.map (· / g)).eval ρ + e.constant % g := by
  obtain ⟨ts, k⟩ := e
  induction ts with
  | nil => exact (Int.mul_ediv_add_emod k g).symm
  | cons t ts ih =>
    have htail := ih fun s hs => hg s (List.mem_cons_of_mem _ hs)
    have hhead := Int.mul_ediv_cancel' (hg t (List.mem_cons_self ..))
    change t.2 * ρ t.1 + eval ⟨ts, k⟩ ρ =
      g * (t.2 / g * ρ t.1 + (map (· / g) ⟨ts, k⟩).eval ρ) + k % g
    rw [htail]
    calc t.2 * ρ t.1 + (g * (map (· / g) ⟨ts, k⟩).eval ρ + k % g)
        = g * (t.2 / g) * ρ t.1 + (g * (map (· / g) ⟨ts, k⟩).eval ρ + k % g) := by rw [hhead]
      _ = g * (t.2 / g * ρ t.1 + (map (· / g) ⟨ts, k⟩).eval ρ) + k % g := by ring

theorem eval_map_neg : (e.map (- ·)).eval ρ = -e.eval ρ := by
  obtain ⟨ts, k⟩ := e
  induction ts with
  | nil => rfl
  | cons t ts ih =>
    change -t.2 * ρ t.1 + (map (- ·) ⟨ts, k⟩).eval ρ = -(t.2 * ρ t.1 + eval ⟨ts, k⟩ ρ)
    rw [ih]
    ring

def InWord (e : Affine) : Prop := (∀ t ∈ e.terms, Word.Fits t.2) ∧ Word.Fits e.constant

instance (e : Affine) : Decidable e.InWord := inferInstanceAs (Decidable (_ ∧ _))

def Reversible (e : Affine) : Prop := ∀ t ∈ e.terms, Word.Fits t.2.natAbs

instance (e : Affine) : Decidable e.Reversible := inferInstanceAs (Decidable (∀ t ∈ e.terms, _))

theorem reversible_iff (he : e.InWord) : e.Reversible ↔ ∀ t ∈ e.terms, t.2 ≠ Word.least :=
  forall₂_congr fun t ht => Word.fits_natAbs_iff.trans (and_iff_right (he.1 t ht))

theorem Reversible.map {f : Int → Int} (he : e.Reversible)
    (hf : ∀ t ∈ e.terms, (f t.2).natAbs ≤ t.2.natAbs) : (e.map f).Reversible := by
  intro t ht
  obtain ⟨s, hs, rfl⟩ := List.mem_map.mp ht
  exact Word.fits_of_natAbs_le (hf s hs) (he s hs)

theorem Reversible.map_div (he : e.Reversible) : (e.map (· / g)).Reversible :=
  he.map fun _ _ => Int.natAbs_ediv_le_natAbs ..

theorem Reversible.map_neg (he : e.Reversible) : (e.map (- ·)).Reversible :=
  he.map fun _ _ => (Int.natAbs_neg _).le

theorem foldlM_commonDivisor_eq {n : Nat} (hn : Word.Fits n) :
    ts.foldlM (fun g t => commonDivisor g t.2) (n : Int) =
      if ∀ t ∈ ts, Word.Fits t.2.natAbs then
        .ok ((ts.foldl (fun g t => g.gcd t.2.natAbs) n : Nat) : Int)
      else .error .trap := by
  induction ts generalizing n with
  | nil => rfl
  | cons t ts ih =>
    rw [List.foldlM_cons, commonDivisor_eq, Int.natAbs_natCast, List.foldl_cons]
    by_cases ht : Word.Fits t.2.natAbs
    · rw [if_pos ⟨hn, ht⟩]
      simp only [List.forall_mem_cons, ht, true_and]
      exact ih (Word.fits_gcd hn ht)
    · rw [if_neg fun h => ht h.2, if_neg fun h => ht (h t (List.mem_cons_self ..))]
      rfl

theorem content_eq : e.content = if e.Reversible then .ok (e.factor : Int) else .error .trap :=
  foldlM_commonDivisor_eq (by decide)

theorem opposite_eq_ok {f : Affine} : e.opposite = .ok f ↔
    (∀ t ∈ e.terms, Word.Fits (-t.2)) ∧ Word.Fits (-e.constant) ∧ e.map (- ·) = f := by
  have hterm (t u : String × Int) :
      (do .ok (t.1, ← trapping (-t.2)) : Except SetError (String × Int)) = .ok u ↔
        Word.Fits (-t.2) ∧ (t.1, -t.2) = u := by
    simp only [bind_eq_ok, trapping_eq_ok_iff, and_assoc, exists_and_left, exists_eq_left',
      Except.ok.injEq]
  simp only [opposite, bind_eq_ok, mapM_eq_ok_map hterm, trapping_eq_ok_iff, Except.ok.injEq]
  constructor
  · rintro ⟨_, ⟨hterms, rfl⟩, _, ⟨hconstant, rfl⟩, rfl⟩
    exact ⟨hterms, hconstant, rfl⟩
  · rintro ⟨hterms, hconstant, rfl⟩
    exact ⟨_, ⟨hterms, rfl⟩, _, ⟨hconstant, rfl⟩, rfl⟩

theorem isReversed_map_neg (h : e.isReversed = true) : (e.map (- ·)).isReversed = false := by
  obtain ⟨ts, k⟩ := e
  cases ts with
  | nil => cases h
  | cons t ts =>
    have ht : t.2 < 0 := of_decide_eq_true h
    exact decide_eq_false (by simpa using ht.le)

theorem fits_factor (he : e.Reversible) : Word.Fits e.factor :=
  List.foldlRecOn e.terms _ (motive := fun n : Nat => Word.Fits n) (by decide)
    fun _ hn t ht => Word.fits_gcd hn (he t ht)

def reduced (e : Affine) (m : Int) : Affine :=
  ⟨(e.terms.map fun t => (t.1, t.2 % m)).filter (fun t => t.2 ≠ 0), e.constant % m⟩

theorem mem_reduced {t : String × Int} (ht : t ∈ (e.reduced m).terms) :
    ∃ s ∈ e.terms, t = (s.1, s.2 % m) ∧ s.2 % m ≠ 0 := by
  obtain ⟨ht, hne⟩ := List.mem_filter.mp ht
  obtain ⟨s, hs, rfl⟩ := List.mem_map.mp ht
  exact ⟨s, hs, rfl, of_decide_eq_true hne⟩

theorem Over.reduced (he : e.Over V) : (e.reduced m).Over V := by
  refine ⟨⟨?_, fun t ht => ?_⟩, fun x hx => ?_⟩
  · have hsub : ((e.reduced m).terms.map Prod.fst).Sublist
        ((e.terms.map fun t => (t.1, t.2 % m)).map Prod.fst) := List.filter_sublist.map _
    refine List.Pairwise.sublist hsub ?_
    simpa [Function.comp_def] using he.canonical.1
  · obtain ⟨s, _, rfl, hne⟩ := mem_reduced ht
    exact hne
  · obtain ⟨t, ht, rfl⟩ := List.mem_map.mp hx
    obtain ⟨s, hs, rfl, _⟩ := mem_reduced ht
    exact he.within s.1 (List.mem_map_of_mem hs)

theorem dvd_eval_sub_reduced : m ∣ e.eval ρ - (e.reduced m).eval ρ := by
  obtain ⟨ts, k⟩ := e
  induction ts with
  | nil => exact Int.dvd_self_sub_emod
  | cons t ts ih =>
    have hcons : (reduced ⟨t :: ts, k⟩ m).eval ρ =
        t.2 % m * ρ t.1 + (reduced ⟨ts, k⟩ m).eval ρ := by
      by_cases h0 : t.2 % m = 0 <;> simp [reduced, h0]
    have hterm : m ∣ (t.2 - t.2 % m) * ρ t.1 := Dvd.dvd.mul_right Int.dvd_self_sub_emod _
    have hsplit : eval ⟨t :: ts, k⟩ ρ - (reduced ⟨t :: ts, k⟩ m).eval ρ =
        (t.2 - t.2 % m) * ρ t.1 + (eval ⟨ts, k⟩ ρ - (reduced ⟨ts, k⟩ m).eval ρ) := by
      rw [hcons, eval_cons]
      ring
    rw [hsplit]
    exact dvd_add hterm ih

theorem dvd_eval_reduced_iff : m ∣ (e.reduced m).eval ρ ↔ m ∣ e.eval ρ :=
  (dvd_iff_dvd_of_dvd_sub dvd_eval_sub_reduced).symm

end LoopAudit.Affine

namespace LoopAudit.Relation

def modulus? : Relation → Option Int
  | .mod m => some m
  | _ => none

theorem mem_modulus? {r : Relation} {m : Int} : m ∈ r.modulus? ↔ r = .mod m := by
  cases r <;> simp [modulus?, eq_comm]

end LoopAudit.Relation

namespace LoopAudit.Constraint

open Fallible

variable {V W : String → Prop} {c d : Constraint} {e : Affine} {x : String} {m : Int} {n : Normal}
  {ρ : String → Int}

structure WellFormed (V : String → Prop) (c : Constraint) : Prop where
  form : c.form.Over V
  modulus_pos : ∀ m, c.relation = .mod m → 0 < m

structure IsNormal (V : String → Prop) (c : Constraint) : Prop extends WellFormed V c where
  fixed : c.normalize = .ok (.proper c)

theorem WellFormed.mono (h : c.WellFormed V) (hVW : ∀ x, V x → W x) : c.WellFormed W :=
  ⟨h.form.mono hVW, h.modulus_pos⟩

theorem IsNormal.mono (h : c.IsNormal V) (hVW : ∀ x, V x → W x) : c.IsNormal W :=
  ⟨h.toWellFormed.mono hVW, h.fixed⟩

theorem WellFormed.eq (h : e.Over V) : (eq e).WellFormed V := ⟨h, nofun⟩

theorem WellFormed.ge (h : e.Over V) : (ge e).WellFormed V := ⟨h, nofun⟩

/-- A normal form says of every assignment what `P` says. -/
def Normal.Describes (V : String → Prop) (P : (String → Int) → Prop) : Normal → Prop
  | .trivial => ∀ ρ, P ρ
  | .infeasible => ∀ ρ, ¬ P ρ
  | .proper d => d.IsNormal V ∧ ∀ ρ, d.Holds ρ ↔ P ρ

theorem normalize_of_isConstant (h : c.form.isConstant = true) : c.normalize =
    .ok (if c.relation.test c.form.constant then .trivial else .infeasible) := by
  rw [normalize, if_pos h]

theorem normalize_eq_of_terms_ne_nil (h : e.terms ≠ []) : (eq e).normalize = normalizeEq e := by
  rw [normalize, if_neg (by simpa [eq, Affine.isConstant] using h)]
  rfl

theorem normalize_ge_of_terms_ne_nil (h : e.terms ≠ []) : (ge e).normalize = normalizeGe e := by
  rw [normalize, if_neg (by simpa [ge, Affine.isConstant] using h)]
  rfl

theorem normalize_mod_of_terms_ne_nil (h : e.terms ≠ []) :
    normalize ⟨.mod m, e⟩ = normalizeMod e m := by
  rw [normalize, if_neg (by simpa [Affine.isConstant] using h)]

theorem terms_map_ne_nil {f : Int → Int} (h : e.terms ≠ []) : (e.map f).terms ≠ [] := by
  simpa [Affine.map] using h

theorem normalizeGe_eq_ok : normalizeGe e = .ok n ↔
    e.Reversible ∧ n = .proper (ge (e.map (· / (e.factor : Int)))) := by
  rw [normalizeGe, Affine.content_eq]
  by_cases he : e.Reversible <;> simp [he, bind, Except.bind, eq_comm]

theorem normalizeGe_spec (he : e.Over V) (hne : e.terms ≠ []) (h : normalizeGe e = .ok n) :
    n.Describes V (ge e).Holds := by
  obtain ⟨hrev, rfl⟩ := normalizeGe_eq_ok.mp h
  have hpos : (0 : Int) < e.factor := Int.natCast_pos.mpr (Affine.factor_pos he.canonical hne)
  have hdvd : ∀ t ∈ e.terms, (e.factor : Int) ∣ t.2 := fun t => Affine.factor_dvd
  refine ⟨⟨.ge (he.map (Affine.div_ne_zero_of_dvd he.canonical hdvd)), ?_⟩, fun ρ => ?_⟩
  · rw [normalize_ge_of_terms_ne_nil (terms_map_ne_nil hne), normalizeGe_eq_ok,
      Affine.factor_map_div he.canonical hne]
    exact ⟨hrev.map_div, congrArg (Normal.proper ∘ ge) Affine.map_div_one.symm⟩
  · change 0 ≤ (e.map (· / (e.factor : Int))).eval ρ ↔ 0 ≤ e.eval ρ
    rw [Affine.eval_eq_mul_div (e := e) hdvd]
    have hlo := Int.emod_nonneg e.constant hpos.ne'
    have hhi := Int.emod_lt_of_pos e.constant hpos
    constructor
    · intro h
      exact add_nonneg (mul_nonneg hpos.le h) hlo
    · intro h
      by_contra hneg
      nlinarith

theorem not_isReversed_iff (he : e.Canonical) :
    e.isReversed = false ↔ ∀ t, e.terms.head? = some t → 0 < t.2 := by
  obtain ⟨ts, k⟩ := e
  cases ts with
  | nil => simp [Affine.isReversed]
  | cons t ts =>
    have ht : t.2 ≠ 0 := he.2 t (List.mem_cons_self ..)
    simp only [Affine.isReversed, List.head?_cons, Option.any_some, decide_eq_false_iff_not,
      Option.some.injEq, forall_eq']
    omega

theorem normalizeEq_eq (hrev : e.Reversible) : normalizeEq e =
    if e.constant % (e.factor : Int) ≠ 0 then .ok .infeasible
    else if (e.map (· / (e.factor : Int))).isReversed then
      (fun d => .proper (eq d)) <$> (e.map (· / (e.factor : Int))).opposite
    else .ok (.proper (eq (e.map (· / (e.factor : Int))))) := by
  rw [normalizeEq, Affine.content_eq, if_pos hrev]
  rfl

theorem normalizeEq_of_factor_one (hrev : e.Reversible) (hone : e.factor = 1) : normalizeEq e =
    if e.isReversed then (fun d => .proper (eq d)) <$> e.opposite else .ok (.proper (eq e)) := by
  rw [normalizeEq_eq hrev, hone, Nat.cast_one, Int.emod_one, if_neg (not_not.mpr rfl),
    Affine.map_div_one]

theorem normalizeEq_fixed (hrev : e.Reversible) (hone : e.factor = 1)
    (hlead : e.isReversed = false) : normalizeEq e = .ok (.proper (eq e)) := by
  rw [normalizeEq_of_factor_one hrev hone, if_neg (by simp [hlead])]

theorem normalizeEq_cases (h : normalizeEq e = .ok n) : e.Reversible ∧
    (e.constant % (e.factor : Int) ≠ 0 ∧ n = .infeasible ∨
    e.constant % (e.factor : Int) = 0 ∧ ∃ d : Affine,
      (d = e.map (· / (e.factor : Int)) ∨ d = (e.map (· / (e.factor : Int))).map (- ·)) ∧
      d.isReversed = false ∧ n = .proper (eq d)) := by
  have hrev : e.Reversible := by
    by_contra hstuck
    rw [normalizeEq, Affine.content_eq, if_neg hstuck] at h
    cases h
  refine ⟨hrev, ?_⟩
  rw [normalizeEq_eq hrev] at h
  split_ifs at h with hk hlead
  · cases h
    exact .inl ⟨hk, rfl⟩
  · obtain ⟨d, hd, rfl⟩ := map_eq_ok.mp h
    obtain ⟨-, -, rfl⟩ := Affine.opposite_eq_ok.mp hd
    exact .inr ⟨not_not.mp hk, _, .inr rfl, Affine.isReversed_map_neg hlead, rfl⟩
  · cases h
    exact .inr ⟨not_not.mp hk, _, .inl rfl, by simpa using hlead, rfl⟩

theorem normalizeEq_spec (he : e.Over V) (hne : e.terms ≠ []) (h : normalizeEq e = .ok n) :
    n.Describes V (eq e).Holds := by
  have hpos : (0 : Int) < e.factor := Int.natCast_pos.mpr (Affine.factor_pos he.canonical hne)
  have hdvd : ∀ t ∈ e.terms, (e.factor : Int) ∣ t.2 := fun t => Affine.factor_dvd
  have hquot := Affine.div_ne_zero_of_dvd he.canonical hdvd
  obtain ⟨hrev, ⟨hk, rfl⟩ | ⟨hk, d, hd, hlead, rfl⟩⟩ := normalizeEq_cases h
  · intro ρ hρ
    change e.eval ρ = 0 at hρ
    rw [Affine.eval_eq_mul_div (e := e) hdvd] at hρ
    have hrem : (e.factor : Int) ∣ e.constant % (e.factor : Int) :=
      (Int.dvd_add_right (dvd_mul_right _ _)).mp (hρ ▸ dvd_zero _)
    exact hk (Int.emod_emod_of_dvd e.constant (dvd_refl _) ▸ Int.emod_eq_zero_of_dvd hrem)
  · have hover : d.Over V ∧ d.Reversible ∧ d.factor = 1 ∧ d.terms ≠ [] ∧
        ∀ ρ, d.eval ρ = 0 ↔ (e.map (· / (e.factor : Int))).eval ρ = 0 := by
      rcases hd with rfl | rfl
      · exact ⟨he.map hquot, hrev.map_div, Affine.factor_map_div he.canonical hne,
          terms_map_ne_nil hne, fun ρ => Iff.rfl⟩
      · refine ⟨(he.map hquot).map fun t ht => neg_ne_zero.mpr ((he.map hquot).canonical.2 t ht),
          hrev.map_div.map_neg, ?_, terms_map_ne_nil (terms_map_ne_nil hne), fun ρ => ?_⟩
        · rw [Affine.factor_map_neg, Affine.factor_map_div he.canonical hne]
        · rw [Affine.eval_map_neg, neg_eq_zero]
    obtain ⟨hover, hrev', hone, hterms, heval⟩ := hover
    refine ⟨⟨.eq hover, ?_⟩, fun ρ => ?_⟩
    · rw [normalize_eq_of_terms_ne_nil hterms, normalizeEq_fixed hrev' hone hlead]
    · change d.eval ρ = 0 ↔ e.eval ρ = 0
      rw [heval, Affine.eval_eq_mul_div (e := e) hdvd, hk, add_zero, mul_eq_zero,
        or_iff_right hpos.ne']

def shared (e : Affine) (m : Int) : Nat := (e.reduced m).factor.gcd m.natAbs

def divided (e : Affine) (m : Int) : Affine := (e.reduced m).map (· / (shared e m : Int))

def reducedNormal (e : Affine) (m : Int) : Normal :=
  if (e.reduced m).constant % (shared e m : Int) ≠ 0 then .infeasible
  else if (shared e m : Int) = m then .trivial
  else .proper ⟨.mod (m / shared e m), divided e m⟩

theorem shared_dvd_modulus : (shared e m : Int) ∣ m :=
  Int.natCast_dvd.mpr (Nat.gcd_dvd_right _ _)

theorem shared_dvd {t : String × Int} (ht : t ∈ (e.reduced m).terms) : (shared e m : Int) ∣ t.2 :=
  (Int.natCast_dvd_natCast.mpr (Nat.gcd_dvd_left _ _)).trans (Affine.factor_dvd ht)

theorem shared_pos (hm : 0 < m) : (0 : Int) < shared e m :=
  Int.natCast_pos.mpr (Nat.gcd_pos_of_pos_right _ (Int.natAbs_pos.mpr hm.ne'))

theorem mem_reduced_range (hm : 0 < m) {t : String × Int} (ht : t ∈ (e.reduced m).terms) :
    0 < t.2 ∧ t.2 < m := by
  obtain ⟨s, _, rfl, hne⟩ := Affine.mem_reduced ht
  exact ⟨lt_of_le_of_ne (Int.emod_nonneg _ hm.ne') (Ne.symm hne), Int.emod_lt_of_pos _ hm⟩

/-- Reduced coefficients are below the modulus, so that only the modulus itself has to be a word. -/
theorem normalizeMod_eq_ok (hm : 0 < m) :
    normalizeMod e m = .ok n ↔ Word.Fits m ∧ n = reducedNormal e m := by
  change (do
    let g ← (e.reduced m).content
    let shared ← commonDivisor g m
    .ok (if (e.reduced m).constant % shared ≠ 0 then Normal.infeasible
      else if shared = m then .trivial
      else .proper ⟨.mod (m / shared), (e.reduced m).map (· / shared)⟩)) = Except.ok n ↔ _
  simp only [bind_eq_ok, Affine.content_eq, commonDivisor_eq, Int.natAbs_of_nonneg hm.le]
  constructor
  · rintro ⟨g, hg, q, hq, h⟩
    split_ifs at hg hq with hrev hfits
    cases hg
    cases hq
    exact ⟨hfits.2, (Except.ok.inj h).symm⟩
  · rintro ⟨hfits, rfl⟩
    have hrev : (e.reduced m).Reversible := fun t ht => by
      obtain ⟨hlo, hhi⟩ := mem_reduced_range hm ht
      exact Word.fits_of_natAbs_le (y := m) (by omega) (by rwa [Int.natAbs_of_nonneg hm.le])
    exact ⟨_, if_pos hrev, _, if_pos ⟨Affine.fits_factor hrev, hfits⟩, rfl⟩

theorem reduced_fixed (hterms : ∀ t ∈ e.terms, 0 < t.2 ∧ t.2 < m)
    (hconstant : 0 ≤ e.constant ∧ e.constant < m) : e.reduced m = e := by
  have hmap : (e.terms.map fun t => (t.1, t.2 % m)) = e.terms := by
    refine (List.map_congr_left fun t ht => ?_).trans (List.map_id _)
    obtain ⟨hlo, hhi⟩ := hterms t ht
    exact Prod.ext rfl (Int.emod_eq_of_lt hlo.le hhi)
  have hfilter : e.terms.filter (fun t => decide (t.2 ≠ 0)) = e.terms :=
    List.filter_eq_self.mpr fun t ht => decide_eq_true (hterms t ht).1.ne'
  rw [Affine.reduced, hmap, hfilter, Int.emod_eq_of_lt hconstant.1 hconstant.2]

theorem divided_of_shared_one (h : shared e m = 1) : divided e m = e.reduced m := by
  rw [divided, h, Nat.cast_one, Affine.map_div_one]

theorem normalizeMod_fixed (hm : 1 < m) (hfits : Word.Fits m)
    (hterms : ∀ t ∈ e.terms, 0 < t.2 ∧ t.2 < m) (hconstant : 0 ≤ e.constant ∧ e.constant < m)
    (hshared : shared e m = 1) : normalizeMod e m = .ok (.proper ⟨.mod m, e⟩) := by
  refine (normalizeMod_eq_ok (zero_lt_one.trans hm)).mpr ⟨hfits, ?_⟩
  rw [reducedNormal, divided_of_shared_one hshared, hshared, reduced_fixed hterms hconstant,
    Nat.cast_one, Int.emod_one, if_neg (not_not.mpr rfl), if_neg hm.ne, Int.ediv_one]

theorem divided_range {q : Int} (hm : 0 < m) (hq : m = shared e m * q) :
    (∀ t ∈ (divided e m).terms, 0 < t.2 ∧ t.2 < q) ∧
      0 ≤ (divided e m).constant ∧ (divided e m).constant < q := by
  have hpos := shared_pos (e := e) hm
  have hbelow {n : Int} (hn : n < m) : n / shared e m < q :=
    Int.ediv_lt_of_lt_mul hpos (by rwa [mul_comm, ← hq])
  refine ⟨fun t ht => ?_, Int.ediv_nonneg (Int.emod_nonneg _ hm.ne') hpos.le,
    hbelow (Int.emod_lt_of_pos _ hm)⟩
  obtain ⟨s, hs, rfl⟩ := List.mem_map.mp ht
  obtain ⟨hlo, hhi⟩ := mem_reduced_range hm hs
  exact ⟨Int.ediv_pos_of_pos_of_dvd hlo hpos.le (shared_dvd hs), hbelow hhi⟩

theorem divided_terms_ne_nil (hm : 0 < m) (h : (shared e m : Int) ≠ m) :
    (divided e m).terms ≠ [] := by
  refine terms_map_ne_nil fun hnil => h ?_
  have hcontent : (e.reduced m).factor = 0 := by
    rw [Affine.factor, hnil]
    rfl
  rw [shared, hcontent, Nat.gcd_zero_left, Int.natAbs_of_nonneg hm.le]

theorem shared_divided (hm : 0 < m)
    (hfixed : (divided e m).reduced (m / shared e m) = divided e m) :
    shared (divided e m) (m / shared e m) = 1 := by
  have hcontent : shared e m * shared (divided e m) (m / shared e m) ∣ (e.reduced m).factor := by
    rw [Affine.dvd_factor_iff, Nat.cast_mul]
    refine Affine.mul_dvd_of_dvd_div (fun t => shared_dvd) fun t ht => ?_
    change t ∈ (divided e m).terms at ht
    rw [← hfixed] at ht
    exact shared_dvd ht
  have hmodulus : ((shared e m * shared (divided e m) (m / shared e m) : Nat) : Int) ∣ m := by
    have hmul := mul_dvd_mul_left (shared e m : Int)
      (shared_dvd_modulus (e := divided e m) (m := m / shared e m))
    rwa [Int.mul_ediv_cancel' shared_dvd_modulus, ← Nat.cast_mul] at hmul
  have hself : shared e m * shared (divided e m) (m / shared e m) ∣ shared e m * 1 := by
    rw [mul_one]
    exact Nat.dvd_gcd hcontent (Int.natCast_dvd.mp hmodulus)
  have hpos : 0 < shared e m := Int.natCast_pos.mp (shared_pos hm)
  exact Nat.dvd_one.mp ((Nat.mul_dvd_mul_iff_left hpos).mp hself)

theorem normalizeMod_spec (he : e.Over V) (hm : 0 < m) (h : normalizeMod e m = .ok n) :
    n.Describes V fun ρ => m ∣ e.eval ρ := by
  obtain ⟨hfits, rfl⟩ := (normalizeMod_eq_ok hm).mp h
  have hpos := shared_pos (e := e) hm
  have hdvd : ∀ t ∈ (e.reduced m).terms, (shared e m : Int) ∣ t.2 := fun t => shared_dvd
  have heval (ρ : String → Int) : (e.reduced m).eval ρ = shared e m * (divided e m).eval ρ +
      (e.reduced m).constant % shared e m := Affine.eval_eq_mul_div hdvd
  obtain ⟨q, hq⟩ := shared_dvd_modulus (e := e) (m := m)
  rw [reducedNormal]
  split_ifs with hk htriv
  · intro ρ hρ
    rw [← Affine.dvd_eval_reduced_iff, heval] at hρ
    have hrem := (Int.dvd_add_right (dvd_mul_right _ _)).mp ((Dvd.intro q hq.symm).trans hρ)
    exact hk (Int.emod_emod_of_dvd _ (dvd_refl _) ▸ Int.emod_eq_zero_of_dvd hrem)
  · intro ρ
    rw [← Affine.dvd_eval_reduced_iff, heval, not_not.mp hk, add_zero, htriv]
    exact dvd_mul_right _ _
  · have hqpos : 0 < q := pos_of_mul_pos_right (hq ▸ hm) hpos.le
    have hquot : m / shared e m = q := Int.ediv_eq_of_eq_mul_right hpos.ne' hq
    have hqone : 1 < q := by
      refine lt_of_le_of_ne hqpos fun h1 => htriv ?_
      rw [← h1, mul_one] at hq
      exact hq.symm
    have hover : (divided e m).Over V :=
      he.reduced.map (Affine.div_ne_zero_of_dvd he.reduced.canonical hdvd)
    obtain ⟨hterms, hconstant⟩ := divided_range hm hq
    have hfits' : Word.Fits q := by
      have hle : q ≤ m := hquot ▸ Int.ediv_le_self _ hm.le
      exact ⟨(by decide : Word.least ≤ 0).trans hqpos.le, hle.trans hfits.2⟩
    have hshared := shared_divided hm (hquot ▸ reduced_fixed hterms hconstant)
    rw [hquot] at hshared ⊢
    refine ⟨⟨⟨hover, fun m' hm' => ?_⟩, ?_⟩, fun ρ => ?_⟩
    · cases hm'
      exact hqpos
    · rw [normalize_mod_of_terms_ne_nil (divided_terms_ne_nil hm htriv),
        normalizeMod_fixed hqone hfits' hterms hconstant hshared]
    · change q ∣ (divided e m).eval ρ ↔ m ∣ e.eval ρ
      rw [← Affine.dvd_eval_reduced_iff (e := e), heval, not_not.mp hk, add_zero]
      nth_rewrite 2 [hq]
      rw [mul_dvd_mul_iff_left hpos.ne']

theorem normalize_spec (hc : c.WellFormed V) (h : c.normalize = .ok n) :
    n.Describes V c.Holds := by
  obtain ⟨r, e⟩ := c
  by_cases hnil : e.terms = []
  · have heval (ρ : String → Int) : e.eval ρ = e.constant := by rw [Affine.eval, hnil]; rfl
    rw [normalize_of_isConstant (by simpa [Affine.isConstant] using hnil)] at h
    cases h
    split_ifs with ht
    · intro ρ
      rw [Holds, heval]
      exact (Relation.test_iff r _).mp ht
    · intro ρ hρ
      rw [Holds, heval] at hρ
      exact ht ((Relation.test_iff r _).mpr hρ)
  · cases r with
    | eq => exact normalizeEq_spec hc.form hnil (normalize_eq_of_terms_ne_nil hnil ▸ h)
    | ge => exact normalizeGe_spec hc.form hnil (normalize_ge_of_terms_ne_nil hnil ▸ h)
    | mod m =>
      exact normalizeMod_spec hc.form (hc.modulus_pos m rfl)
        (normalize_mod_of_terms_ne_nil hnil ▸ h)

theorem normalize_eq_proper (hc : c.WellFormed V) (h : c.normalize = .ok (.proper d)) :
    d.IsNormal V ∧ ∀ ρ, d.Holds ρ ↔ c.Holds ρ :=
  normalize_spec hc h

theorem terms_ne_nil_of_normalize (h : c.normalize = .ok (.proper d)) : c.form.terms ≠ [] := by
  intro hnil
  rw [normalize_of_isConstant (by simpa [Affine.isConstant] using hnil)] at h
  split at h <;> cases h

theorem IsNormal.terms_ne_nil (hc : c.IsNormal V) : c.form.terms ≠ [] :=
  terms_ne_nil_of_normalize hc.fixed

theorem IsNormal.divided_eq (hc : c.IsNormal V) (hm : c.relation = .mod m) :
    (shared c.form m : Int) ≠ m ∧ m / shared c.form m = m ∧ divided c.form m = c.form := by
  obtain ⟨r, e⟩ := c
  subst hm
  have hfixed := hc.fixed
  rw [normalize_mod_of_terms_ne_nil hc.terms_ne_nil,
    normalizeMod_eq_ok (hc.modulus_pos m rfl), reducedNormal] at hfixed
  obtain ⟨-, hfixed⟩ := hfixed
  split_ifs at hfixed with hk htriv
  simp only [Normal.proper.injEq, mk.injEq, Relation.mod.injEq] at hfixed
  exact ⟨htriv, hfixed.1.symm, hfixed.2.symm⟩

theorem IsNormal.shared_eq_one (hc : c.IsNormal V) (hm : c.relation = .mod m) :
    shared c.form m = 1 := by
  have hmul := Int.mul_ediv_cancel' (shared_dvd_modulus (e := c.form) (m := m))
  rw [(hc.divided_eq hm).2.1] at hmul
  exact Nat.cast_eq_one.mp ((mul_eq_right₀ (hc.modulus_pos m hm).ne').mp hmul)

theorem IsNormal.reduced_eq (hc : c.IsNormal V) (hm : c.relation = .mod m) :
    1 < m ∧ c.form.reduced m = c.form := by
  obtain ⟨htriv, -, hform⟩ := hc.divided_eq hm
  have hone := hc.shared_eq_one hm
  rw [divided_of_shared_one hone] at hform
  refine ⟨lt_of_le_of_ne (hc.modulus_pos m hm) fun h1 => htriv ?_, hform⟩
  rw [hone, Nat.cast_one]
  exact h1

theorem IsNormal.mod_range (hc : c.IsNormal V) (hm : c.relation = .mod m) :
    1 < m ∧ 0 ≤ c.form.constant ∧ c.form.constant < m := by
  obtain ⟨hone, hreduced⟩ := hc.reduced_eq hm
  have hpos : 0 < m := zero_lt_one.trans hone
  have hconstant : c.form.constant % m = c.form.constant := congrArg Affine.constant hreduced
  refine ⟨hone, ?_, ?_⟩
  · exact hconstant ▸ Int.emod_nonneg _ hpos.ne'
  · exact hconstant ▸ Int.emod_lt_of_pos _ hpos

theorem normalize_vars (h : c.normalize = .ok (.proper d)) (hc : c.WellFormed V)
    (hr : ∀ m, c.relation ≠ .mod m) : d.relation = c.relation ∧ d.form.vars = c.form.vars := by
  have hne := terms_ne_nil_of_normalize h
  obtain ⟨r, e⟩ := c
  cases r with
  | eq =>
    have h : normalizeEq e = .ok (.proper d) := normalize_eq_of_terms_ne_nil hne ▸ h
    obtain ⟨-, ⟨-, h'⟩ | ⟨-, d', hd', -, h'⟩⟩ := normalizeEq_cases h
    · cases h'
    · cases h'
      refine ⟨rfl, ?_⟩
      rcases hd' with rfl | rfl
      · exact Affine.vars_map _
      · exact (Affine.vars_map _).trans (Affine.vars_map _)
  | ge =>
    have h : normalizeGe e = .ok (.proper d) := normalize_ge_of_terms_ne_nil hne ▸ h
    obtain ⟨-, h'⟩ := normalizeGe_eq_ok.mp h
    cases h'
    exact ⟨rfl, Affine.vars_map _⟩
  | mod m => exact absurd rfl (hr m)

theorem normalize_mod_vars (h : c.normalize = .ok (.proper d)) (hm : c.relation = .mod m)
    (hc : c.WellFormed V) (hx : x ∈ d.form.vars) : ¬ m ∣ c.form.coeff x := by
  have hne := terms_ne_nil_of_normalize h
  obtain ⟨r, e⟩ := c
  subst hm
  rw [normalize_mod_of_terms_ne_nil hne, normalizeMod_eq_ok (hc.modulus_pos m rfl),
    reducedNormal] at h
  obtain ⟨-, h⟩ := h
  split_ifs at h
  cases h
  simp only [divided, Affine.vars_map] at hx
  obtain ⟨t, ht, rfl⟩ := List.mem_map.mp hx
  obtain ⟨s, hs, rfl, hne⟩ := Affine.mem_reduced ht
  have hcoeff : e.coeff s.1 = s.2 := Affine.coeff_of_mem hc.form.canonical.nodup hs
  exact fun hdvd => hne (Int.emod_eq_zero_of_dvd (hcoeff ▸ hdvd))

section Answers

def InWord (c : Constraint) : Prop := c.form.InWord ∧ ∀ m ∈ c.relation.modulus?, Word.Fits m

instance (c : Constraint) : Decidable c.InWord := inferInstanceAs (Decidable (_ ∧ _))

/-- Numbers that have no opposite where normalising needs it: a coefficient of an equality or an
inequality, or the constant of an equality that is turned around and not divided. -/
def Stuck (c : Constraint) : Prop :=
  match c.relation with
  | .eq => (∃ t ∈ c.form.terms, t.2 = Word.least) ∨
      c.form.constant = Word.least ∧ c.form.factor = 1 ∧ c.form.isReversed = true
  | .ge => ∃ t ∈ c.form.terms, t.2 = Word.least
  | .mod _ => False

instance : DecidablePred Stuck := fun c => by
  unfold Stuck
  cases c.relation <;> infer_instance

theorem exists_normalizeGe_iff : (∃ n, normalizeGe e = .ok n) ↔ e.Reversible := by
  simp [normalizeGe_eq_ok]

theorem exists_normalizeMod_iff (hm : 0 < m) : (∃ n, normalizeMod e m = .ok n) ↔ Word.Fits m := by
  simp [normalizeMod_eq_ok hm]

theorem fits_neg_div {k : Int} {g : Nat} (hk : Word.Fits k) (hg : 0 < g) :
    Word.Fits (-(k / (g : Int))) ↔ ¬ (k = Word.least ∧ g = 1) := by
  have hle := Int.natAbs_ediv_le_natAbs k g
  have hlt := Int.lt_ediv_add_one_mul_self k (Int.natCast_pos.mpr hg)
  constructor
  · rintro hfits ⟨rfl, rfl⟩
    exact absurd hfits (by decide)
  · intro hnot
    have hne : k / (g : Int) ≠ Word.least := by
      intro hq
      rw [hq] at hlt
      unfold Word.Fits Word.least Word.greatest at *
      omega
    unfold Word.Fits Word.least Word.greatest at *
    omega

theorem exists_normalizeEq_iff (he : e.Canonical) (hne : e.terms ≠ []) (hk : Word.Fits e.constant) :
    (∃ n, normalizeEq e = .ok n) ↔ e.Reversible ∧
      ¬ (e.constant = Word.least ∧ e.factor = 1 ∧ e.isReversed = true) := by
  constructor
  · rintro ⟨n, h⟩
    have hrev := (normalizeEq_cases h).1
    refine ⟨hrev, ?_⟩
    rintro ⟨hconstant, hone, hlead⟩
    rw [normalizeEq_of_factor_one hrev hone, if_pos hlead] at h
    obtain ⟨f, hf, -⟩ := map_eq_ok.mp h
    obtain ⟨-, hfits, -⟩ := Affine.opposite_eq_ok.mp hf
    rw [hconstant] at hfits
    exact absurd hfits (by decide)
  · rintro ⟨hrev, hfree⟩
    rw [normalizeEq_eq hrev]
    split_ifs with hk' hlead
    · exact ⟨_, rfl⟩
    · -- Turning the form around needs the opposites of its numbers.
      have hopposite : (e.map (· / (e.factor : Int))).opposite =
          .ok ((e.map (· / (e.factor : Int))).map (- ·)) := by
        refine Affine.opposite_eq_ok.mpr ⟨fun t ht => ?_, ?_, rfl⟩
        · exact Word.fits_neg_of_natAbs (hrev.map_div t ht)
        · refine (fits_neg_div hk (Affine.factor_pos he hne)).mpr ?_
          rintro ⟨hconstant, hone⟩
          rw [hone, Nat.cast_one, Affine.map_div_one] at hlead
          exact hfree ⟨hconstant, hone, hlead⟩
      rw [hopposite]
      exact ⟨_, rfl⟩
    · exact ⟨_, rfl⟩

theorem exists_normalize_iff (hc : c.WellFormed V) (hword : c.InWord) :
    (∃ n, c.normalize = .ok n) ↔ ¬ c.Stuck := by
  obtain ⟨r, e⟩ := c
  by_cases hnil : e.terms = []
  · rw [normalize_of_isConstant (by simpa [Affine.isConstant] using hnil)]
    refine iff_of_true ⟨_, rfl⟩ ?_
    cases r <;> simp [Stuck, Affine.isReversed, hnil]
  have hleast : e.Reversible ↔ ¬ ∃ t ∈ e.terms, t.2 = Word.least := by
    simp only [Affine.reversible_iff hword.1, not_exists, not_and, ne_eq]
  cases r with
  | eq =>
    rw [← eq, normalize_eq_of_terms_ne_nil hnil,
      exists_normalizeEq_iff hc.form.canonical hnil hword.1.2, hleast, ← not_or]
    rfl
  | ge =>
    rw [← ge, normalize_ge_of_terms_ne_nil hnil, exists_normalizeGe_iff, hleast]
    rfl
  | mod m =>
    rw [normalize_mod_of_terms_ne_nil hnil, exists_normalizeMod_iff (hc.modulus_pos m rfl)]
    exact iff_of_true (hword.2 m (Relation.mem_modulus?.mpr rfl)) id

end Answers

end LoopAudit.Constraint
