import Mathlib.RingTheory.Coprime.Lemmas
import Mathlib.Tactic.LinearCombination
import LoopAudit.Proofs.Partition

/-! Single constraints, decided and split. Normalising tells the constraints that hold everywhere
and those that hold nowhere from all others: what it leaves is primitive, and a primitive constraint
holds somewhere and fails somewhere, since a form takes every value that its coefficients allow. The
alternatives of a negation divide the assignments with the constraint itself. -/

namespace LoopAudit

namespace Affine

variable {e : Affine} {t : String × Int} {ts : List (String × Int)} {k v : Int}

theorem factor_cons : factor ⟨t :: ts, k⟩ = Int.gcd t.2 (factor ⟨ts, k⟩) := by
  refine Nat.dvd_antisymm ?_ ?_
  · refine Int.dvd_gcd (factor_dvd (List.mem_cons_self ..)) ?_
    rw [Int.natCast_dvd_natCast, dvd_factor_iff]
    exact fun s hs => factor_dvd (e := ⟨t :: ts, k⟩) (List.mem_cons_of_mem _ hs)
  · refine dvd_factor_iff.mpr (List.forall_mem_cons.mpr ⟨Int.gcd_dvd_left .., fun s hs => ?_⟩)
    exact (Int.gcd_dvd_right ..).trans (factor_dvd (e := ⟨ts, k⟩) hs)

theorem exists_eval_eq (he : e.vars.Nodup) (h : (e.factor : Int) ∣ v - e.constant) :
    ∃ ρ, e.eval ρ = v := by
  obtain ⟨ts, k⟩ := e
  induction ts generalizing v with
  | nil =>
    have hv : v - k = 0 := zero_dvd_iff.mp h
    exact ⟨fun _ => 0, (sub_eq_zero.mp hv).symm⟩
  | cons t ts ih =>
    obtain ⟨ht, hts⟩ := List.nodup_cons.mp he
    rw [factor_cons] at h
    obtain ⟨q, hq⟩ := h
    obtain ⟨a, b, hab⟩ : ∃ a b : Int,
        (Int.gcd t.2 (factor ⟨ts, k⟩) : Int) = t.2 * a + factor ⟨ts, k⟩ * b :=
      ⟨_, _, Int.gcd_eq_gcd_ab ..⟩
    -- The first name takes its share, and the others add up to what is left.
    have hrest : v - t.2 * (a * q) - k = factor ⟨ts, k⟩ * (b * q) := by
      linear_combination hq + q * hab
    obtain ⟨ρ, hρ⟩ := ih hts (Dvd.intro _ hrest.symm)
    refine ⟨Function.update ρ t.1 (a * q), ?_⟩
    have htail : eval ⟨ts, k⟩ (Function.update ρ t.1 (a * q)) = eval ⟨ts, k⟩ ρ := by
      refine eval_congr fun x hx => Function.update_of_ne ?_ ..
      rintro rfl
      exact ht hx
    rw [eval_cons, Function.update_self, htail, hρ]
    ring

theorem exists_eval_of_factor (he : e.vars.Nodup) (h : e.factor = 1) : ∃ ρ, e.eval ρ = v :=
  exists_eval_eq he (by rw [h]; exact one_dvd _)

end Affine

def Relation.Divides : Relation → Relation → Prop
  | .mod q, .mod m => q ∣ m
  | r, s => r = s

namespace Constraint

variable {V : String → Prop} {c d : Constraint}

/-- A normal form, said of its numbers: the coefficients have no common factor, and the first one is
positive in an equality. A congruence is reduced, with a modulus of at least two that shares no
factor with its coefficients. -/
def Primitive (c : Constraint) : Prop :=
  match c.relation with
  | .eq => c.form.factor = 1 ∧ ∀ t, c.form.terms.head? = some t → 0 < t.2
  | .ge => c.form.factor = 1
  | .mod m => 2 ≤ m ∧ Int.gcd c.form.factor m = 1 ∧ (∀ t ∈ c.form.terms, 0 < t.2 ∧ t.2 < m) ∧
      0 ≤ c.form.constant ∧ c.form.constant < m

theorem IsNormal.primitive (hc : c.IsNormal V) : c.Primitive := by
  have hne := hc.terms_ne_nil
  have hcanonical := hc.form.canonical
  have hfixed := hc.fixed
  obtain ⟨r, e⟩ := c
  cases r with
  | eq =>
    have hfixed : normalizeEq e = .ok (.proper (eq e)) := normalize_eq_of_terms_ne_nil hne ▸ hfixed
    obtain ⟨-, ⟨-, h⟩ | ⟨-, d, hd, hlead, h⟩⟩ := normalizeEq_cases hfixed
    · cases h
    · cases h
      refine ⟨?_, (not_isReversed_iff hcanonical).mp hlead⟩
      have hone := Affine.factor_map_div hcanonical hne
      rcases hd with hd | hd
      · rwa [← hd] at hone
      · rwa [← Affine.factor_map_neg, ← hd] at hone
  | ge =>
    have hfixed : normalizeGe e = .ok (.proper (ge e)) := normalize_ge_of_terms_ne_nil hne ▸ hfixed
    obtain ⟨-, h⟩ := normalizeGe_eq_ok.mp hfixed
    have hsame : e.map (· / (e.factor : Int)) = e := by simpa [ge] using h.symm
    have hone := Affine.factor_map_div hcanonical hne
    rwa [hsame] at hone
  | mod m =>
    obtain ⟨hlarge, hnonneg, hlt⟩ := hc.mod_range rfl
    have hreduced : e.reduced m = e := (hc.reduced_eq rfl).2
    have hshared : (e.reduced m).factor.gcd m.natAbs = 1 := hc.shared_eq_one rfl
    refine ⟨hlarge, hreduced ▸ hshared, fun t ht => ?_, hnonneg, hlt⟩
    exact mem_reduced_range (hc.modulus_pos m rfl) (e := e) (by rwa [hreduced])

theorem Primitive.exists_holds (hc : c.Primitive) (hvars : c.form.vars.Nodup) : ∃ ρ, c.Holds ρ := by
  obtain ⟨r, e⟩ := c
  cases r with
  | eq => exact Affine.exists_eval_of_factor hvars hc.1
  | ge =>
    obtain ⟨ρ, hρ⟩ := Affine.exists_eval_of_factor (v := 0) hvars hc
    exact ⟨ρ, hρ.ge⟩
  | mod m =>
    obtain ⟨-, hgcd, -⟩ := hc
    obtain ⟨a, b, hab⟩ := Int.isCoprime_iff_gcd_eq_one.mpr hgcd
    have hsplit : m * (b * e.constant) - e.constant = e.factor * (-(a * e.constant)) := by
      linear_combination e.constant * hab
    obtain ⟨ρ, hρ⟩ := Affine.exists_eval_eq hvars ⟨_, hsplit⟩
    exact ⟨ρ, Dvd.intro _ hρ.symm⟩

theorem Primitive.exists_fails (hc : c.Primitive) (hvars : c.form.vars.Nodup) :
    ∃ ρ, ¬ c.Holds ρ := by
  obtain ⟨r, e⟩ := c
  cases r with
  | eq =>
    obtain ⟨ρ, hρ⟩ := Affine.exists_eval_of_factor (v := 1) hvars hc.1
    exact ⟨ρ, fun h => one_ne_zero (hρ.symm.trans h)⟩
  | ge =>
    obtain ⟨ρ, hρ⟩ := Affine.exists_eval_of_factor (v := -1) hvars hc
    exact ⟨ρ, fun h => absurd (hρ ▸ h : (0 : Int) ≤ -1) (by decide)⟩
  | mod m =>
    obtain ⟨hlarge, hgcd, -⟩ := hc
    obtain ⟨ρ, hρ⟩ := Affine.exists_eval_eq (v := e.constant) hvars (by simp)
    obtain ⟨σ, hσ⟩ := Affine.exists_eval_eq (v := e.constant + e.factor) hvars (by simp)
    by_contra hall
    rw [not_exists_not] at hall
    have hdvd : m ∣ e.factor := by
      have hsub : m ∣ e.constant + e.factor - e.constant := dvd_sub (hσ ▸ hall σ) (hρ ▸ hall ρ)
      rwa [add_sub_cancel_left] at hsub
    have hunit : m ∣ 1 := by
      have hgcd' := Int.dvd_coe_gcd hdvd (dvd_refl m)
      rwa [hgcd] at hgcd'
    exact absurd (Int.le_of_dvd one_pos hunit) (by omega)

theorem undecided_of_normalize (hc : c.WellFormed V) (h : c.normalize = .ok (.proper d)) :
    (∃ ρ, c.Holds ρ) ∧ ∃ ρ, ¬ c.Holds ρ := by
  obtain ⟨hd, hiff⟩ := normalize_eq_proper hc h
  have hvars := hd.form.canonical.nodup
  constructor
  · exact (hd.primitive.exists_holds hvars).imp fun ρ => (hiff ρ).mp
  · exact (hd.primitive.exists_fails hvars).imp fun ρ => mt (hiff ρ).mpr

theorem normalize_decides {n : Normal} (hc : c.WellFormed V) (h : c.normalize = .ok n) :
    (n = .trivial ↔ ∀ ρ, c.Holds ρ) ∧ (n = .infeasible ↔ ∀ ρ, ¬ c.Holds ρ) := by
  have hspec := normalize_spec hc h
  cases n with
  | trivial =>
    exact ⟨iff_of_true rfl hspec, iff_of_false (by simp) fun h => h (fun _ => 0) (hspec _)⟩
  | infeasible =>
    exact ⟨iff_of_false (by simp) fun h => hspec (fun _ => 0) (h _), iff_of_true rfl hspec⟩
  | proper d =>
    obtain ⟨⟨ρ, hρ⟩, σ, hσ⟩ := undecided_of_normalize hc h
    exact ⟨iff_of_false (by simp) fun hall => hσ (hall σ),
      iff_of_false (by simp) fun hnone => hnone ρ hρ⟩

theorem normalize_divides (hc : c.WellFormed V) (h : c.normalize = .ok (.proper d)) :
    d.relation.Divides c.relation := by
  cases hr : c.relation with
  | eq | ge =>
    rw [(normalize_vars h hc (by simp [hr])).1, hr]
    rfl
  | mod m =>
    obtain ⟨r, e⟩ := c
    subst hr
    rw [normalize_mod_of_terms_ne_nil (terms_ne_nil_of_normalize h),
      normalizeMod_eq_ok (hc.modulus_pos m rfl), reducedNormal] at h
    obtain ⟨-, h⟩ := h
    split_ifs at h
    cases h
    exact Int.ediv_dvd_of_dvd shared_dvd_modulus

theorem negate_partition {ds : List Constraint} (hc : c.WellFormed V) (h : c.negate = .ok ds)
    (ρ : String → Int) : ∃! i : Fin (c :: ds).length, ((c :: ds).get i).Holds ρ := by
  have hiff := (negate_spec hc h).2 ρ
  refine existsUnique_get (P := fun d : Constraint => d.Holds ρ)
    (List.pairwise_cons.mpr ⟨?_, ?_⟩) ?_
  · exact fun d hd hcρ hdρ => hiff.mp ⟨d, hd, hdρ⟩ hcρ
  · exact (negate_apart hc h).imp fun hapart => hapart ρ
  · by_cases hcρ : c.Holds ρ
    · exact ⟨c, List.mem_cons_self .., hcρ⟩
    · obtain ⟨d, hd, hdρ⟩ := hiff.mpr hcρ
      exact ⟨d, List.mem_cons_of_mem _ hd, hdρ⟩

/-- Normalising and negating are exact over the integers. A constraint of words that is not stuck
normalises to nothing exactly if it holds everywhere, to a contradiction exactly if it holds
nowhere, and otherwise to a primitive constraint of the same kind with the same solutions, which
stays as it is from then on; a stuck one traps. Where a constraint has a negation, each assignment
satisfies either the constraint or one of the alternatives, and only one of them. -/
theorem normalize_and_negate_exact (hc : c.Proper) (hword : c.InWord) :
    (¬ c.Stuck → ∃ n, c.normalize = .ok n ∧ (n = .trivial ↔ ∀ ρ, c.Holds ρ) ∧
        (n = .infeasible ↔ ∀ ρ, ¬ c.Holds ρ)) ∧
      (c.Stuck → c.normalize = .error .trap) ∧
      (∀ d, c.normalize = .ok (.proper d) → (∀ ρ, d.Holds ρ ↔ c.Holds ρ) ∧
        d.normalize = .ok (.proper d) ∧ d.relation.Divides c.relation ∧ d.Primitive) ∧
      ∀ ds, c.negate = .ok ds → ∀ ρ, ∃! i : Fin (c :: ds).length, ((c :: ds).get i).Holds ρ := by
  have hanswers := exists_normalize_iff hc hword
  refine ⟨fun hfree => ?_, fun hstuck => ?_, fun d h => ?_, fun ds => negate_partition hc⟩
  · obtain ⟨n, hn⟩ := hanswers.mpr hfree
    exact ⟨n, hn, normalize_decides hc hn⟩
  · cases h : c.normalize with
    | ok n => exact absurd hstuck (hanswers.mp ⟨n, h⟩)
    | error e => exact congrArg _ (normalize_traps e h)
  · obtain ⟨hnormal, hiff⟩ := normalize_eq_proper hc h
    exact ⟨hiff, hnormal.fixed, normalize_divides hc h, hnormal.primitive⟩

def oddRow : Constraint := ⟨.mod 4, ⟨[("i", 6), ("j", 4)], 2⟩⟩

theorem oddRow_exact :
    oddRow.Proper ∧ oddRow.InWord ∧ ¬ oddRow.Stuck ∧
      oddRow.normalize = .ok (.proper ⟨.mod 2, ⟨[("i", 1)], 1⟩⟩) ∧
      ¬ (∀ ρ, ¬ oddRow.Holds ρ) ∧
      (∀ ρ, Holds ⟨.mod 2, ⟨[("i", 1)], 1⟩⟩ ρ ↔ oddRow.Holds ρ) ∧
      Primitive ⟨.mod 2, ⟨[("i", 1)], 1⟩⟩ ∧
      ∃ ds, oddRow.negate = .ok ds ∧ ds.length = 3 ∧
        ∀ ρ, ∃! i : Fin (oddRow :: ds).length, ((oddRow :: ds).get i).Holds ρ := by
  have hproper : oddRow.Proper := by decide
  have hword : oddRow.InWord := by decide
  have hfree : ¬ oddRow.Stuck := by decide
  have hnormalize : oddRow.normalize = .ok (.proper ⟨.mod 2, ⟨[("i", 1)], 1⟩⟩) := rfl
  obtain ⟨hdecides, -, hnormal, hnegate⟩ := normalize_and_negate_exact hproper hword
  obtain ⟨n, hn, -, hinfeasible⟩ := hdecides hfree
  cases hnormalize.symm.trans hn
  obtain ⟨hiff, -, -, hprimitive⟩ := hnormal _ rfl
  exact ⟨hproper, hword, hfree, hnormalize, mt hinfeasible.mpr (by simp), hiff, hprimitive, _, rfl,
    rfl, hnegate _ rfl⟩

def leastRow : Constraint := .ge ⟨[("x", Word.least), ("y", 5)], 0⟩

theorem leastRow_stuck :
    leastRow.Proper ∧ leastRow.InWord ∧ leastRow.Primitive ∧ leastRow.Holds (fun _ => 0) ∧
      leastRow.normalize = .error .trap :=
  ⟨by decide, by decide, (rfl : leastRow.form.factor = 1), le_refl (0 : Int), rfl⟩

end Constraint

end LoopAudit
