import LoopAudit.Expr.Evaluation
import LoopAudit.Proofs.Fallible
import Mathlib.Data.Int.ModEq
import Mathlib.Data.Rat.Floor

/-! Division of words that rounds down. The quotient is the floor wherever that is a word, which
only the least word over minus one denies. The remainder is a word in all cases, but it is reached
by way of a multiple of the divisor, and that may lie past the end of the range next to which the
dividend stands: the remainder is refused exactly there. -/

namespace LoopAudit.Expr

open Fallible

variable {values : Assignment} {x y : Expr} {a b q r : Int}

section Quotient

theorem fdiv_eq_tdiv_sub (hb : b ≠ 0) :
    a.fdiv b = if a.tmod b ≠ 0 ∧ ¬ (a < 0 ↔ b < 0) then a.tdiv b - 1 else a.tdiv b := by
  have hdvd : b ∣ a ↔ a.tmod b = 0 := Int.dvd_iff_tmod_eq_zero
  have hpos : 0 < b → b.sign = 1 := Int.sign_eq_one_of_pos
  have hneg : b < 0 → b.sign = -1 := Int.sign_eq_neg_one_of_neg
  rw [Int.fdiv_eq_tdiv]
  split_ifs <;> omega

theorem tdiv_nonpos (h : ¬ (a < 0 ↔ b < 0)) : a.tdiv b ≤ 0 := by
  by_cases ha : a < 0
  · have hopposite : 0 ≤ (-a).tdiv b := Int.tdiv_nonneg (by omega) (by omega)
    rw [Int.neg_tdiv] at hopposite
    omega
  · exact Int.tdiv_nonpos_of_nonneg_of_nonpos (by omega) (by omega)

theorem fitting_pred (h : q ≤ 0) : (do fitting ((← fitting q) - 1)) = fitting (q - 1) := by
  by_cases hq : Word.Fits q
  · rw [fitting, if_pos hq]
    rfl
  · -- A quotient that is not positive and no word is below the words already.
    have hpred : ¬ Word.Fits (q - 1) := by
      unfold Word.Fits Word.least Word.greatest at hq ⊢
      omega
    rw [fitting, fitting, if_neg hq, if_neg hpred]
    rfl

theorem floorQuotient_eq :
    floorQuotient a b = if b = 0 then .error .divisionByZero else fitting (a.fdiv b) := by
  unfold floorQuotient
  by_cases hb : b = 0
  · rw [if_pos hb, if_pos hb]
  · rw [if_neg hb, if_neg hb, fdiv_eq_tdiv_sub hb]
    by_cases hdown : a.tmod b ≠ 0 ∧ ¬ (a < 0 ↔ b < 0)
    · simp only [if_pos hdown]
      exact fitting_pred (tdiv_nonpos hdown.2)
    · simp only [if_neg hdown]
      exact bind_pure _

theorem floor_div_of_pos (hb : 0 < b) : ⌊(a / b : ℚ)⌋ = a.fdiv b := by
  lift b to Nat using hb.le
  rw [Int.fdiv_eq_ediv_of_nonneg a hb.le, Int.cast_natCast, Rat.floor_intCast_div_natCast]

theorem floor_div (hb : b ≠ 0) : ⌊(a / b : ℚ)⌋ = a.fdiv b := by
  rcases lt_or_gt_of_ne hb with hneg | hpos
  · have hflip := floor_div_of_pos (a := -a) (b := -b) (neg_pos.mpr hneg)
    rwa [Int.neg_fdiv_neg, Int.cast_neg, Int.cast_neg, neg_div_neg_eq] at hflip
  · exact floor_div_of_pos hpos

theorem fdiv_between (hb : 0 < b) : min a 0 ≤ a.fdiv b ∧ a.fdiv b ≤ max a 0 := by
  rw [Int.fdiv_eq_ediv_of_nonneg a hb.le]
  rcases le_or_gt 0 a with ha | ha
  · rw [min_eq_right ha, max_eq_left ha]
    exact ⟨Int.ediv_nonneg ha hb.le, Int.ediv_le_self b ha⟩
  · rw [min_eq_left ha.le, max_eq_right ha.le]
    refine ⟨Int.le_ediv_of_mul_le hb ?_, (Int.ediv_neg_of_neg_of_pos ha hb).le⟩
    nlinarith

theorem fmod_bounds_of_neg (hb : b < 0) : b < a.fmod b ∧ a.fmod b ≤ 0 := by
  have hlo := Int.fmod_nonneg_of_pos (-a) (neg_pos.mpr hb)
  have hhi := Int.fmod_lt_of_pos (-a) (neg_pos.mpr hb)
  rw [Int.neg_fmod_neg] at hlo hhi
  omega

theorem fits_fdiv_iff (ha : Word.Fits a) (hb : b ≠ 0) :
    Word.Fits (a.fdiv b) ↔ ¬ (a = Word.least ∧ b = -1) := by
  unfold Word.Fits Word.least Word.greatest at ha ⊢
  rcases lt_or_gt_of_ne hb with hneg | hpos
  · obtain ⟨hlo, hhi⟩ := fdiv_between (a := -a) (b := -b) (neg_pos.mpr hneg)
    rw [Int.neg_fdiv_neg] at hlo hhi
    by_cases hone : b = -1
    · have hopposite : a.fdiv b = -a := by
        rw [hone, ← Int.neg_fdiv_neg, neg_neg, Int.fdiv_one]
      omega
    · -- A smaller divisor at least halves the dividend.
      have hmul := Int.mul_fdiv_add_fmod a b
      have hrest := (fmod_bounds_of_neg (a := a) hneg).2
      have hhalf (hq : 0 ≤ a.fdiv b) : b * a.fdiv b ≤ -2 * a.fdiv b :=
        mul_le_mul_of_nonneg_right (by omega) hq
      omega
  · obtain ⟨hlo, hhi⟩ := fdiv_between (a := a) hpos
    omega

end Quotient

section Remainder

/-- What `a` leaves modulo `b`: congruent to `a`, of the sign of `b`, and nearer to zero than
`b`. -/
structure Leaves (a b r : Int) : Prop where
  congruent : r ≡ a [ZMOD b]
  nonneg : 0 < b → 0 ≤ r
  nonpos : b < 0 → r ≤ 0
  nearer : r.natAbs < b.natAbs

theorem Leaves.unique {s : Int} (hr : Leaves a b r) (hs : Leaves a b s) : r = s := by
  have hdvd : b ∣ s - r := (hr.congruent.trans hs.congruent.symm).dvd
  have hnear : (s - r).natAbs < b.natAbs := by
    obtain ⟨-, hr0, hr0', hrb⟩ := hr
    obtain ⟨-, hs0, hs0', hsb⟩ := hs
    omega
  have hzero := Int.eq_zero_of_dvd_of_natAbs_lt_natAbs hdvd hnear
  omega

theorem leaves_fmod (hb : b ≠ 0) : Leaves a b (a.fmod b) := by
  have hcongruent : a.fmod b ≡ a [ZMOD b] :=
    Int.modEq_iff_dvd.mpr ⟨a.fdiv b, by rw [Int.fmod_def, sub_sub_cancel]⟩
  rcases lt_or_gt_of_ne hb with hneg | hpos
  · obtain ⟨hlo, hhi⟩ := fmod_bounds_of_neg (a := a) hneg
    exact ⟨hcongruent, by omega, by omega, by omega⟩
  · have hlo := Int.fmod_nonneg_of_pos a hpos
    have hhi := Int.fmod_lt_of_pos a hpos
    exact ⟨hcongruent, by omega, by omega, by omega⟩

theorem Leaves.fits (h : Leaves a b r) (hb : Word.Fits b) : Word.Fits r := by
  obtain ⟨-, hnonneg, hnonpos, hnearer⟩ := h
  unfold Word.Fits Word.least Word.greatest at hb ⊢
  omega

theorem floorRemainder_eq (hb : Word.Fits b) (hzero : b ≠ 0) : floorRemainder a b =
    if Word.Fits (a.fdiv b) ∧ Word.Fits (b * a.fdiv b) then .ok (a - b * a.fdiv b)
    else .error .overflow := by
  have hrest : Word.Fits (a - b * a.fdiv b) := by
    rw [← Int.fmod_def]
    exact (leaves_fmod hzero).fits hb
  unfold floorRemainder
  rw [floorQuotient_eq, if_neg hzero]
  by_cases hq : Word.Fits (a.fdiv b)
  · rw [fitting_eq_ok.mpr ⟨hq, rfl⟩]
    change (do fitting (a - (← fitting (a.fdiv b * b)))) = _
    rw [mul_comm (a.fdiv b)]
    by_cases hmultiple : Word.Fits (b * a.fdiv b)
    · rw [fitting_eq_ok.mpr ⟨hmultiple, rfl⟩, if_pos ⟨hq, hmultiple⟩]
      exact fitting_eq_ok.mpr ⟨hrest, rfl⟩
    · rw [fitting, if_neg hmultiple, if_neg fun h => hmultiple h.2]
      rfl
  · rw [fitting, if_neg hq, if_neg fun h => hq h.1]
    rfl

theorem Leaves.fits_multiple_iff (h : Leaves a b r) (ha : Word.Fits a) (hzero : b ≠ 0) :
    Word.Fits (a - r) ↔ (0 < b → Word.least + r ≤ a) ∧ (b < 0 → a ≤ Word.greatest + r) := by
  obtain ⟨-, hnonneg, hnonpos, -⟩ := h
  unfold Word.Fits Word.least Word.greatest at *
  omega

end Remainder

section Evaluation

/-- Quotient and remainder of two words. The quotient is the floor of the exact one, wherever that
is a word. The remainder is the one integer that is congruent to the dividend, has the sign of the
divisor and is nearer to zero than it; it is a word, but has a value only where the quotient and the
multiple of the divisor that it is the distance to are words as well. -/
theorem evaluate_floored (hx : evaluate values x = .ok a) (hy : evaluate values y = .ok b)
    (ha : Word.Fits a) (hb : Word.Fits b) (hzero : b ≠ 0) :
    ∃ q r, q = ⌊(a / b : ℚ)⌋ ∧ r = a - b * q ∧ (∀ s, Leaves a b s ↔ s = r) ∧ Word.Fits r ∧
      (evaluate values (.floorDiv x y) = if Word.Fits q then .ok q else .error .overflow) ∧
      (evaluate values (.remainder x y) =
        if Word.Fits q ∧ Word.Fits (b * q) then .ok r else .error .overflow) ∧
      (Word.Fits q ↔ ¬ (a = Word.least ∧ b = -1)) ∧
      (Word.Fits (b * q) ↔ (0 < b → Word.least + r ≤ a) ∧ (b < 0 → a ≤ Word.greatest + r)) := by
  have hleaves := leaves_fmod (a := a) hzero
  have hmultiple := hleaves.fits_multiple_iff ha hzero
  rw [Int.fmod_def] at hleaves hmultiple
  rw [sub_sub_cancel] at hmultiple
  refine ⟨_, _, rfl, rfl, ?_⟩
  rw [floor_div hzero]
  refine ⟨fun s => ⟨fun hs => hs.unique hleaves, ?_⟩, hleaves.fits hb, ?_, ?_,
    fits_fdiv_iff ha hzero, hmultiple⟩
  · rintro rfl
    exact hleaves
  · rw [evaluate, hx, hy]
    change floorQuotient a b = _
    rw [floorQuotient_eq, if_neg hzero, fitting]
  · rw [evaluate, hx, hy]
    exact floorRemainder_eq hb hzero

theorem evaluate_next_to_least :
    evaluate [("n", -9223372036854775807)] (.remainder (.var "n") (.int 4)) = .ok 1 ∧
      evaluate [("n", -9223372036854775807)] (.floorDiv (.var "n") (.int 4)) =
        .ok (-2305843009213693952) := by
  have hn : evaluate [("n", -9223372036854775807)] (.var "n") = .ok (-9223372036854775807) := rfl
  have hfour : evaluate [("n", -9223372036854775807)] (.int 4) = .ok 4 := rfl
  obtain ⟨q, r, hq, hr, -, -, hquotient, hremainder, -, -⟩ :=
    evaluate_floored hn hfour (by decide) (by decide) (by decide)
  rw [floor_div (by decide)] at hq
  obtain rfl : q = -2305843009213693952 := hq
  obtain rfl : r = 1 := hr
  exact ⟨hremainder, hquotient⟩

theorem evaluate_refused_remainders :
    (Leaves 9223372036854775807 (-2) (-1) ∧
      evaluate [("m", -2), ("n", 9223372036854775807)] (.remainder (.var "n") (.var "m")) =
        .error .overflow) ∧
    (Leaves (-9223372036854775807) 3 2 ∧
      evaluate [("m", 3), ("n", -9223372036854775807)] (.remainder (.var "n") (.var "m")) =
        .error .overflow) :=
  ⟨⟨leaves_fmod (by decide), rfl⟩, leaves_fmod (by decide), rfl⟩

end Evaluation

end LoopAudit.Expr
