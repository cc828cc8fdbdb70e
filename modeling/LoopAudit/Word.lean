/-! Signed 64-bit words. Values are plain integers; the width shows only in the range test `Fits`,
so that an operation is exact whenever it answers at all. -/

namespace LoopAudit.Word

def least : Int := -9223372036854775808

def greatest : Int := 9223372036854775807

def Fits (x : Int) : Prop := least ≤ x ∧ x ≤ greatest

instance (x : Int) : Decidable (Fits x) := inferInstanceAs (Decidable (_ ∧ _))

def checked (x : Int) : Option Int := if Fits x then some x else none

def saturate (x : Int) : Int := max least (min x greatest)

theorem checked_eq_some_iff {x y : Int} : checked x = some y ↔ Fits x ∧ x = y := by
  unfold checked
  split <;> simp_all

theorem fits_natAbs_iff {x : Int} : Fits x.natAbs ↔ Fits x ∧ x ≠ least := by
  unfold Fits least greatest
  omega

theorem fits_neg_of_natAbs {x : Int} (h : Fits x.natAbs) : Fits (-x) := by
  unfold Fits least greatest at *
  omega

theorem fits_of_natAbs_le {x y : Int} (h : x.natAbs ≤ y.natAbs) (hy : Fits y.natAbs) :
    Fits x.natAbs := by
  unfold Fits least greatest at *
  omega

theorem fits_gcd {m n : Nat} (hm : Fits m) (hn : Fits n) : Fits (m.gcd n : Nat) := by
  rcases Nat.eq_zero_or_pos n with h0 | hpos
  · rwa [h0, Nat.gcd_zero_right]
  · have hle := Nat.gcd_le_right m hpos
    exact fits_of_natAbs_le (x := (m.gcd n : Nat)) (y := n) hle hn

end LoopAudit.Word
