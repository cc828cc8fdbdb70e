import LoopAudit.Sample
import Mathlib.Data.Int.Interval

/-! Intervals of words, and their values in the order in which the search tries them: nearest to
zero first, and positive before negative. -/

namespace LoopAudit.Sample

variable {i : Interval} {v w : Int}

namespace Interval

def InWord (i : Interval) : Prop := (∀ l ∈ i.lo, Word.Fits l) ∧ ∀ h ∈ i.hi, Word.Fits h

theorem InWord.all : Interval.all.InWord := ⟨nofun, nofun⟩

theorem mem_all : Interval.all.Mem v := ⟨nofun, nofun⟩

theorem InWord.raise (hi : i.InWord) {l : Int} (hl : Word.Fits l) : (i.raise l).InWord := by
  refine ⟨?_, hi.2⟩
  rintro k ⟨⟩
  cases hlo : i.lo with
  | none => exact hl
  | some m =>
    rcases max_cases l m with ⟨hmax, -⟩ | ⟨hmax, -⟩
    · simpa [hmax] using hl
    · simpa [hmax] using hi.1 m hlo

theorem InWord.lower (hi : i.InWord) {h : Int} (hh : Word.Fits h) : (i.lower h).InWord := by
  refine ⟨hi.1, ?_⟩
  rintro k ⟨⟩
  cases hhi : i.hi with
  | none => exact hh
  | some m =>
    rcases min_cases h m with ⟨hmin, -⟩ | ⟨hmin, -⟩
    · simpa [hmin] using hh
    · simpa [hmin] using hi.2 m hhi

theorem mem_raise {l : Int} (hv : i.Mem v) (hl : l ≤ v) : (i.raise l).Mem v := by
  refine ⟨?_, hv.2⟩
  rintro k ⟨⟩
  cases hlo : i.lo with
  | none => exact hl
  | some m => exact max_le hl (hv.1 m hlo)

theorem mem_lower {h : Int} (hv : i.Mem v) (hh : v ≤ h) : (i.lower h).Mem v := by
  refine ⟨hv.1, ?_⟩
  rintro k ⟨⟩
  cases hhi : i.hi with
  | none => exact hh
  | some m => exact le_min hh (hv.2 m hhi)

theorem not_isEmpty (hv : i.Mem v) : i.isEmpty = false := by
  obtain ⟨_ | l, _ | h⟩ := i <;> try rfl
  simpa [isEmpty] using (hv.1 l rfl).trans (hv.2 h rfl)

theorem Mem.between {u : Int} (hv : i.Mem v) (hw : i.Mem w) (hvu : v ≤ u) (huw : u ≤ w) : i.Mem u :=
  ⟨fun l hl => (hv.1 l hl).trans hvu, fun h hh => huw.trans (hw.2 h hh)⟩

theorem contains_iff : i.contains v = true ↔ i.Mem v := by
  obtain ⟨_ | l, _ | h⟩ := i <;> simp [contains, Mem]

theorem mem_nearest (h : i.isEmpty = false) : i.Mem i.nearest := by
  obtain ⟨_ | l, _ | u⟩ := i <;>
    simp only [isEmpty, decide_eq_false_iff_not, Mem, nearest, Option.elim, Option.mem_def,
      reduceCtorEq, Option.some.injEq, forall_eq', false_imp_iff, implies_true, true_and,
      and_true] at * <;> omega

theorem InWord.nearest (hi : i.InWord) : Word.Fits i.nearest := by
  have hzero : Word.Fits 0 := by decide
  obtain ⟨_ | l, _ | u⟩ := i <;>
    simp only [InWord, Interval.nearest, Option.elim, Option.mem_def, reduceCtorEq,
      Option.some.injEq, forall_eq', false_imp_iff, implies_true, true_and, and_true,
      Word.Fits] at * <;> omega

end Interval

section Candidates

def offsets (n : Nat) : List Int :=
  0 :: (List.range n).flatMap fun (k : Nat) => [(k : Int) + 1, -((k : Int) + 1)]

def nearby (i : Interval) : List Int :=
  ((offsets maxCandidates).map (i.nearest + ·)).filter
    fun v => i.contains v && decide (Word.Fits v)

def candidates (i : Interval) : List Int := (nearby i).take maxCandidates

theorem mem_offsets {n : Nat} : v ∈ offsets n ↔ -(n : Int) ≤ v ∧ v ≤ n := by
  simp only [offsets, List.mem_cons, List.mem_flatMap, List.mem_range, List.not_mem_nil, or_false]
  constructor
  · rintro (rfl | ⟨k, hk, rfl | rfl⟩) <;> omega
  · intro hv
    rcases lt_trichotomy v 0 with hneg | rfl | hpos
    · exact .inr ⟨(-v - 1).toNat, by omega, .inr (by omega)⟩
    · exact .inl rfl
    · exact .inr ⟨(v - 1).toNat, by omega, .inl (by omega)⟩

/-- Nearer to zero, or just as near and positive where the other one is negative. -/
def Nearer (v w : Int) : Prop := v.natAbs < w.natAbs ∨ v.natAbs = w.natAbs ∧ w < v

theorem Nearer.asymm (h : Nearer v w) : ¬ Nearer w v := by
  unfold Nearer at *
  omega

theorem offsets_sorted (n : Nat) : (offsets n).Pairwise Nearer := by
  unfold Nearer
  rw [offsets, List.pairwise_cons, List.pairwise_flatMap]
  refine ⟨?_, fun k _ => by simp; omega, ?_⟩
  · simp only [List.mem_flatMap, List.mem_range, List.mem_cons, List.not_mem_nil, or_false]
    rintro d ⟨k, hk, rfl | rfl⟩ <;> omega
  · refine List.pairwise_lt_range.imp fun hlt => ?_
    simp only [List.mem_cons, List.not_mem_nil, or_false]
    rintro d (rfl | rfl) e (rfl | rfl) <;> omega

theorem length_le_of_nodup {vs : List Int} {l h : Int} (hnodup : vs.Nodup)
    (hvs : ∀ v ∈ vs, l ≤ v ∧ v ≤ h) : (vs.length : Int) ≤ max 0 (h - l + 1) := by
  have hsub : vs.toFinset ⊆ Finset.Icc l h := by
    intro v hv
    exact Finset.mem_Icc.mpr (hvs v (List.mem_toFinset.mp hv))
  have hcard := Finset.card_le_card hsub
  rw [List.toFinset_card_of_nodup hnodup, Int.card_Icc] at hcard
  omega

theorem mem_nearby : v ∈ nearby i ↔ (v - i.nearest).natAbs ≤ maxCandidates ∧ i.Mem v ∧
    Word.Fits v := by
  have hoffset : v ∈ (offsets maxCandidates).map (i.nearest + ·) ↔
      v - i.nearest ∈ offsets maxCandidates := by
    rw [List.mem_map]
    constructor
    · rintro ⟨d, hd, rfl⟩
      rwa [add_sub_cancel_left]
    · exact fun h => ⟨_, h, add_sub_cancel _ _⟩
  rw [nearby, List.mem_filter, hoffset, mem_offsets, Bool.and_eq_true, Interval.contains_iff,
    decide_eq_true_eq]
  exact and_congr_left' (by omega)

/-- An interval without zero lies on one side of it, so that its values are as far from the nearest
one as they are farther from zero. -/
theorem nearer_of_sub (hv : i.Mem v) (hw : i.Mem w)
    (h : Nearer (v - i.nearest) (w - i.nearest)) : Nearer v w := by
  obtain ⟨_ | l, _ | u⟩ := i <;>
    simp only [Nearer, Interval.Mem, Interval.nearest, Option.elim, Option.mem_def, reduceCtorEq,
      Option.some.injEq, forall_eq', false_imp_iff, implies_true, true_and, and_true] at * <;> omega

theorem nearby_sorted : (nearby i).Pairwise Nearer := by
  have hmap : ((offsets maxCandidates).map (i.nearest + ·)).Pairwise
      fun v w => Nearer (v - i.nearest) (w - i.nearest) := by
    rw [List.pairwise_map]
    simpa only [add_sub_cancel_left] using offsets_sorted maxCandidates
  refine (hmap.filter _).imp_of_mem fun hv hw h => ?_
  exact nearer_of_sub (mem_nearby.mp hv).2.1 (mem_nearby.mp hw).2.1 h

theorem nodup_nearby : (nearby i).Nodup :=
  nearby_sorted.imp fun h heq => (heq ▸ h).asymm (heq ▸ h)

theorem mem_candidates (hi : i.InWord) (hex : isExhaustive i = true) (hv : i.Mem v) :
    v ∈ candidates i := by
  obtain ⟨_ | l, _ | h⟩ := i
  case some.some =>
    have hspan : h - l < maxCandidates := by simpa [isExhaustive] using hex
    have hl := hv.1 l rfl
    have hh := hv.2 h rfl
    have hmem : v ∈ nearby ⟨some l, some h⟩ := by
      refine mem_nearby.mpr ⟨?_, hv, (hi.1 l rfl).1.trans hl, hh.trans (hi.2 h rfl).2⟩
      simp only [Interval.nearest, Option.elim]
      omega
    have hends : ∀ w ∈ nearby ⟨some l, some h⟩, l ≤ w ∧ w ≤ h := by
      intro w hw
      have hw' := (mem_nearby.mp hw).2.1
      exact ⟨hw'.1 l rfl, hw'.2 h rfl⟩
    have hlen := length_le_of_nodup nodup_nearby hends
    rwa [candidates, List.take_of_length_le (by omega)]
  all_goals cases hex

theorem le_length_of_subset {vs : List Int} {l h : Int} (hvs : ∀ v, l ≤ v → v ≤ h → v ∈ vs) :
    h - l + 1 ≤ vs.length := by
  have hsub : Finset.Icc l h ⊆ vs.toFinset := by
    intro v hv
    obtain ⟨hl, hh⟩ := Finset.mem_Icc.mp hv
    exact List.mem_toFinset.mpr (hvs v hl hh)
  have hcard := (Finset.card_le_card hsub).trans (List.toFinset_card_le vs)
  rw [Int.card_Icc] at hcard
  omega

theorem lt_length_nearby (hi : i.InWord) (hempty : i.isEmpty = false) (hv : i.Mem v)
    (hfits : Word.Fits v) (hfar : maxCandidates < (v - i.nearest).natAbs) :
    maxCandidates < (nearby i).length := by
  have hnearest := Interval.mem_nearest hempty
  have hword := hi.nearest
  rcases lt_or_ge v i.nearest with hlt | hge
  · have hlen : i.nearest - (i.nearest - maxCandidates) + 1 ≤ ((nearby i).length : Int) :=
      le_length_of_subset fun w hl hh => mem_nearby.mpr ⟨by omega,
        hv.between hnearest (by omega) hh, hfits.1.trans (by omega), hh.trans hword.2⟩
    omega
  · have hlen : i.nearest + maxCandidates - i.nearest + 1 ≤ ((nearby i).length : Int) :=
      le_length_of_subset fun w hl hh => mem_nearby.mpr ⟨by omega,
        hnearest.between hv hl (by omega), hword.1.trans hl, le_trans (by omega) hfits.2⟩
    omega

structure FirstWords (i : Interval) (vs : List Int) : Prop where
  length_le : vs.length ≤ maxCandidates
  sorted : vs.Pairwise Nearer
  mem : ∀ v ∈ vs, i.Mem v ∧ Word.Fits v
  missing : ∀ v, i.Mem v → Word.Fits v → v ∉ vs →
    vs.length = maxCandidates ∧ ∀ w ∈ vs, Nearer w v

theorem candidates_firstWords (hi : i.InWord) (hempty : i.isEmpty = false) :
    FirstWords i (candidates i) := by
  have hsub : ∀ w ∈ candidates i, w ∈ nearby i := fun w hw => List.mem_of_mem_take hw
  have hlen : (candidates i).length = min maxCandidates (nearby i).length := by
    rw [candidates, List.length_take]
  refine ⟨by omega, nearby_sorted.sublist (List.take_sublist ..), fun v hv => ?_,
    fun v hv hfits hnot => ?_⟩
  · exact (mem_nearby.mp (hsub v hv)).2
  by_cases hnear : v ∈ nearby i
  · -- A word within reach that is not tried comes after all that are.
    rw [← List.take_append_drop maxCandidates (nearby i), List.mem_append] at hnear
    have hlate := hnear.resolve_left hnot
    have hlong := List.length_pos_of_mem hlate
    rw [List.length_drop] at hlong
    have hsorted := nearby_sorted (i := i)
    rw [← List.take_append_drop maxCandidates (nearby i), List.pairwise_append] at hsorted
    exact ⟨by omega, fun w hw => hsorted.2.2 w hw v hlate⟩
  · have hfar : maxCandidates < (v - i.nearest).natAbs := by
      by_contra hle
      exact hnear (mem_nearby.mpr ⟨not_lt.mp hle, hv, hfits⟩)
    have hlong := lt_length_nearby hi hempty hv hfits hfar
    refine ⟨by omega, fun w hw => ?_⟩
    obtain ⟨hreach, hmem, -⟩ := mem_nearby.mp (hsub w hw)
    exact nearer_of_sub hmem hv (.inl (by omega))

end Candidates

end LoopAudit.Sample
