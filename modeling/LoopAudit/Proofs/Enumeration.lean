import LoopAudit.Proofs.Candidates
import LoopAudit.Proofs.Fallible
import Mathlib.Logic.Relation

/-! The enumeration of candidates, turn by turn. It hands out the first words of an interval in
their order. It then ends where it has handed out as many as are tried, or where both ends of the
interval lie inside the word range; elsewhere one side never counts as left, and the distance
overflows. -/

namespace LoopAudit.Sample

open Fallible

variable {i : Interval} {v w : Int} {j k n e : Nat}

namespace Interval

def IsInner (i : Interval) : Prop :=
  ∃ l h, i.lo = some l ∧ i.hi = some h ∧ Word.least < l ∧ h < Word.greatest

theorem mem_iff_ends {l h : Int} (hlo : i.lo = some l) (hhi : i.hi = some h) :
    i.Mem v ↔ l ≤ v ∧ v ≤ h := by
  simp [Mem, hlo, hhi]

end Interval

namespace Candidates

section Turns

def offsetAt (k : Nat) : Int := if k % 2 = 1 then ((k + 1) / 2 : Nat) else -((k / 2 : Nat) : Int)

theorem offsetAt_up {d : Nat} : offsetAt (2 * d + 1) = (d : Int) + 1 := by
  rw [offsetAt, if_pos (by omega)]
  omega

theorem offsetAt_down {d : Nat} : offsetAt (2 * d + 2) = -((d : Int) + 1) := by
  rw [offsetAt, if_neg (by omega)]
  omega

theorem offsets_eq : offsets n = (List.range (2 * n + 1)).map offsetAt := by
  induction n with
  | zero => rfl
  | succ n ih =>
    rw [show 2 * (n + 1) + 1 = 2 * n + 1 + 1 + 1 by omega, List.range_succ, List.range_succ,
      List.append_assoc, List.map_append, ← ih]
    simp [offsets, List.range_succ, offsetAt_up, offsetAt_down]

def valueAt (i : Interval) (k : Nat) : Int := i.nearest + offsetAt k

theorem valueAt_zero : valueAt i 0 = i.nearest := add_zero _

def hits (i : Interval) (k : Nat) : Bool :=
  i.contains (valueAt i k) && decide (Word.Fits (valueAt i k))

theorem hits_iff : hits i k = true ↔ i.Mem (valueAt i k) ∧ Word.Fits (valueAt i k) := by
  rw [hits, Bool.and_eq_true, Interval.contains_iff, decide_eq_true_iff]

theorem hits_zero (hi : i.InWord) (hempty : i.isEmpty = false) : hits i 0 = true := by
  rw [hits_iff, valueAt_zero]
  exact ⟨Interval.mem_nearest hempty, hi.nearest⟩

def stateAt (i : Interval) (k e : Nat) : Candidates :=
  ⟨i, i.nearest, e, ((k + 1) / 2 : Nat), decide (k = 0 ∨ k % 2 = 1)⟩

theorem ofInterval_eq : ofInterval i = stateAt i 0 0 := rfl

theorem stateAt_up {d : Nat} : stateAt i (2 * d + 1) e = ⟨i, i.nearest, e, d + 1, true⟩ := by
  have hoffset : (2 * d + 1 + 1) / 2 = d + 1 := by omega
  simp [stateAt, hoffset]

theorem stateAt_down {d : Nat} : stateAt i (2 * d + 2) e = ⟨i, i.nearest, e, d + 1, false⟩ := by
  have hoffset : (2 * d + 2 + 1) / 2 = d + 1 := by omega
  simp [stateAt, hoffset]

theorem turn_number (k : Nat) : k = 0 ∨ (∃ d, k = 2 * d + 1) ∨ ∃ d, k = 2 * d + 2 := by
  rcases Nat.eq_zero_or_pos k with hzero | hpos
  · exact .inl hzero
  · rcases Nat.mod_two_eq_zero_or_one k with heven | hodd
    · exact .inr (.inr ⟨(k - 1) / 2, by omega⟩)
    · exact .inr (.inl ⟨k / 2, by omega⟩)

def lastTurn : Nat := 18446744073709551614

theorem look_stateAt (hi : i.InWord) (hk : k < lastTurn) :
    (stateAt i k e).look = .ok (Word.checked (valueAt i k), stateAt i (k + 1) e) := by
  obtain rfl | ⟨d, rfl⟩ | ⟨d, rfl⟩ := turn_number k
  · rw [Word.checked_eq_some_iff.mpr ⟨valueAt_zero (i := i) ▸ hi.nearest, valueAt_zero⟩]
    rfl
  · rw [stateAt_up, stateAt_down, valueAt, offsetAt_up, look, if_neg (by simp; omega)]
    rfl
  · have hfits : Word.Fits ((d : Int) + 1 + 1) := by
      unfold Word.Fits Word.least Word.greatest
      unfold lastTurn at hk
      omega
    rw [stateAt_down, show 2 * d + 2 + 1 = 2 * (d + 1) + 1 by omega, stateAt_up, valueAt,
      offsetAt_down, look, if_neg (by simp; omega), if_neg (by simp), ← sub_eq_add_neg,
      trapping_eq_ok_iff.mpr ⟨hfits, rfl⟩]
    push_cast
    rfl

theorem turn_stateAt (hi : i.InWord) (hk : k < lastTurn) :
    (stateAt i k e).turn = .ok (if hits i k then some (valueAt i k) else none,
      stateAt i (k + 1) (if hits i k then e + 1 else e)) := by
  rw [turn, look_stateAt hi hk]
  by_cases hfits : Word.Fits (valueAt i k)
  · rw [Word.checked_eq_some_iff.mpr ⟨hfits, rfl⟩]
    cases hmem : i.contains (valueAt i k) <;>
      simp [hits, hfits, hmem, bind, Except.bind, stateAt]
  · simp [hits, hfits, bind, Except.bind, Word.checked]

theorem turn_lastTurn : (stateAt i lastTurn e).turn = .error .trap := rfl

end Turns

section Spent

theorem isSpent_iff {c : Candidates} : c.isSpent = true ↔ 0 < c.offset ∧ ∃ l h,
    c.interval.lo = some l ∧ c.interval.hi = some h ∧ h < Word.saturate (c.start + c.offset) ∧
      Word.saturate (c.start - c.offset) < l := by
  obtain ⟨⟨_ | l, _ | h⟩, start, emitted, offset, upward⟩ := c <;> simp [isSpent, and_assoc]

theorem isInner_of_isSpent (h : (stateAt i k e).isSpent = true) : i.IsInner := by
  obtain ⟨-, l, u, hlo, hhi, hup, hdown⟩ := isSpent_iff.mp h
  refine ⟨l, u, hlo, hhi, lt_of_le_of_lt (le_max_left ..) hdown, hup.trans_le ?_⟩
  exact max_le (by decide) (min_le_right ..)

theorem not_hits_of_isSpent (h : (stateAt i k e).isSpent = true) (hkj : k ≤ j) :
    hits i j = false := by
  obtain ⟨hoffset, l, u, hlo, hhi, hup, hdown⟩ := isSpent_iff.mp h
  rw [Bool.eq_false_iff, Ne, hits_iff]
  rintro ⟨hmem, hfits⟩
  obtain ⟨hl, hu⟩ := (Interval.mem_iff_ends (i := i) hlo hhi).mp hmem
  simp only [stateAt, Word.saturate, Word.least, Word.greatest, Word.Fits, valueAt, offsetAt] at *
  split_ifs at * <;> omega

theorem isSpent_of_not_hits {d : Nat} (hi : i.InWord) (hempty : i.isEmpty = false)
    (hinner : i.IsInner) (hup : hits i (2 * d + 1) = false) (hdown : hits i (2 * d + 2) = false) :
    (stateAt i (2 * d + 1) e).isSpent = true := by
  obtain ⟨l, u, hlo, hhi, hleast, hgreatest⟩ := hinner
  have hfits := hi.nearest
  obtain ⟨hl, hu⟩ := (Interval.mem_iff_ends hlo hhi).mp (Interval.mem_nearest hempty)
  rw [Bool.eq_false_iff, Ne, hits_iff, Interval.mem_iff_ends hlo hhi, valueAt] at hup hdown
  rw [offsetAt_up] at hup
  rw [offsetAt_down] at hdown
  rw [stateAt_up, isSpent_iff]
  refine ⟨by simp only; omega, l, u, hlo, hhi, ?_, ?_⟩ <;>
    simp only [Word.saturate, Word.least, Word.greatest, Word.Fits] at * <;> omega

end Spent

section Next

theorem isOver_iff :
    (stateAt i k e).isOver = true ↔ maxCandidates ≤ e ∨ (stateAt i k e).isSpent = true := by
  rw [isOver, Bool.or_eq_true, decide_eq_true_iff]
  exact Iff.rfl

theorem isOver_of_not_isInner (hinner : ¬ i.IsInner) (he : e < maxCandidates) :
    (stateAt i k e).isOver = false := by
  rw [Bool.eq_false_iff, Ne, isOver_iff, not_or]
  exact ⟨not_le.mpr he, fun h => hinner (isInner_of_isSpent h)⟩

theorem nextWithin_of_isOver {c : Candidates} (h : c.isOver = true) :
    c.nextWithin (n + 1) = .ok (none, c) := by
  rw [nextWithin, if_pos h]

theorem nextWithin_turn (hi : i.InWord) (hover : (stateAt i k e).isOver = false)
    (hk : k < lastTurn) : (stateAt i k e).nextWithin (n + 1) =
      if hits i k then .ok (some (valueAt i k), stateAt i (k + 1) (e + 1))
      else (stateAt i (k + 1) e).nextWithin n := by
  rw [nextWithin, if_neg (by simp [hover]), turn_stateAt hi hk]
  cases hits i k <;> rfl

theorem nextWithin_lastTurn (hover : (stateAt i lastTurn e).isOver = false) :
    (stateAt i lastTurn e).nextWithin (n + 1) = .error .trap := by
  rw [nextWithin, if_neg (by simp [hover]), turn_lastTurn]
  rfl

theorem nextWithin_of_hits (hi : i.InWord) (he : e < maxCandidates) (hkj : k ≤ j)
    (hj : j < lastTurn) (hhit : hits i j = true) (hfirst : ∀ m, k ≤ m → m < j → hits i m = false)
    (hn : j < k + n) :
    (stateAt i k e).nextWithin n = .ok (some (valueAt i j), stateAt i (j + 1) (e + 1)) := by
  induction n generalizing k with
  | zero => omega
  | succ n ih =>
    have hover : (stateAt i k e).isOver = false := by
      rw [Bool.eq_false_iff, Ne, isOver_iff, not_or]
      refine ⟨not_le.mpr he, fun hspent => ?_⟩
      rw [not_hits_of_isSpent hspent hkj] at hhit
      cases hhit
    rw [nextWithin_turn hi hover (by omega)]
    rcases hkj.eq_or_lt with rfl | hlt
    · rw [if_pos hhit]
    · rw [hfirst k le_rfl hlt, if_neg (by simp)]
      exact ih hlt (fun m hm => hfirst m (by omega)) (by omega)

theorem nextWithin_of_isInner (hi : i.InWord) (hempty : i.isEmpty = false) (hinner : i.IsInner)
    (hk : k < lastTurn) (hmiss : ∀ m, k ≤ m → hits i m = false) :
    ∃ c, (stateAt i k e).nextWithin (n + 2) = .ok (none, c) ∧ c.isOver = true := by
  by_cases hover : (stateAt i k e).isOver = true
  · exact ⟨_, nextWithin_of_isOver hover, hover⟩
  have hup {d : Nat} (hd : k ≤ 2 * d + 1) : (stateAt i (2 * d + 1) e).isOver = true :=
    isOver_iff.mpr (.inr (isSpent_of_not_hits hi hempty hinner (hmiss _ hd) (hmiss _ (by omega))))
  obtain rfl | ⟨d, rfl⟩ | ⟨d, rfl⟩ := turn_number k
  · have hzero := hmiss 0 le_rfl
    rw [hits_zero hi hempty] at hzero
    cases hzero
  · exact absurd (hup le_rfl) hover
  · have hnext := hup (d := d + 1) (by omega)
    refine ⟨_, ?_, hnext⟩
    rw [nextWithin_turn hi (by simpa using hover) hk, hmiss _ le_rfl, if_neg (by simp)]
    exact nextWithin_of_isOver hnext

theorem nextWithin_of_not_isInner (hi : i.InWord) (hinner : ¬ i.IsInner) (he : e < maxCandidates)
    (hk : k ≤ lastTurn) (hmiss : ∀ m, k ≤ m → hits i m = false) :
    (stateAt i k e).nextWithin n = .error .trap := by
  induction n generalizing k with
  | zero => rfl
  | succ n ih =>
    have hover := isOver_of_not_isInner (k := k) hinner he
    rcases hk.eq_or_lt with rfl | hlt
    · exact nextWithin_lastTurn hover
    · rw [nextWithin_turn hi hover hlt, hmiss k le_rfl, if_neg (by simp)]
      exact ih hlt fun m hm => hmiss m (by omega)

end Next

section Stages

def reach : Nat := 2 * maxCandidates + 1

def ahead (i : Interval) (k : Nat) : List Int :=
  ((List.range' k (reach - k)).filter (hits i)).map (valueAt i)

theorem nearby_eq : nearby i = ahead i 0 := by
  rw [nearby, offsets_eq, List.map_map, List.filter_map, ahead, Nat.sub_zero,
    ← List.range_eq_range']
  rfl

theorem ahead_of_le (hk : reach ≤ k) : ahead i k = [] := by
  rw [ahead, Nat.sub_eq_zero_of_le hk]
  rfl

theorem ahead_of_lt (hk : k < reach) :
    ahead i k = if hits i k then valueAt i k :: ahead i (k + 1) else ahead i (k + 1) := by
  have hsub : reach - k = reach - (k + 1) + 1 := by omega
  rw [ahead, hsub, List.range'_succ, List.filter_cons, ahead]
  split <;> rfl

theorem ahead_cases (i : Interval) (k : Nat) :
    (ahead i k = [] ∧ ∀ m, k ≤ m → m < reach → hits i m = false) ∨
      ∃ j, k ≤ j ∧ j < reach ∧ hits i j = true ∧ (∀ m, k ≤ m → m < j → hits i m = false) ∧
        ahead i k = valueAt i j :: ahead i (j + 1) := by
  rcases Nat.le_or_ge reach k with hle | hge
  · exact .inl ⟨ahead_of_le hle, fun m hm hlt => by omega⟩
  induction hge using Nat.decreasingInduction with
  | self => exact .inl ⟨ahead_of_le le_rfl, fun m hm hlt => by omega⟩
  | of_succ k hk ih =>
    rw [ahead_of_lt hk]
    cases hhit : hits i k with
    | true => exact .inr ⟨k, le_rfl, hk, hhit, fun m hm hlt => by omega, rfl⟩
    | false =>
      have hstep {m : Nat} (hm : k ≤ m) (hlater : k + 1 ≤ m → hits i m = false) :
          hits i m = false := by
        rcases hm.eq_or_lt with rfl | hlt
        · exact hhit
        · exact hlater hlt
      rcases ih with ⟨hnil, hmiss⟩ | ⟨j, hkj, hj, hhitj, hfirst, hcons⟩
      · exact .inl ⟨hnil, fun m hm hlt => hstep hm fun h => hmiss m h hlt⟩
      · exact .inr ⟨j, by omega, hj, hhitj, fun m hm hlt => hstep hm fun h => hfirst m h hlt, hcons⟩

def Counted (i : Interval) (k e : Nat) : Prop := e + (ahead i k).length = (nearby i).length

theorem counted_zero : Counted i 0 0 := by
  rw [Counted, nearby_eq, zero_add]

theorem not_hits_of_le (hi : i.InWord) (hempty : i.isEmpty = false) (hk : reach ≤ k)
    (hfew : (nearby i).length ≤ maxCandidates) : hits i k = false := by
  rw [Bool.eq_false_iff, Ne, hits_iff]
  rintro ⟨hmem, hfits⟩
  refine absurd (lt_length_nearby hi hempty hmem hfits ?_) (not_lt.mpr hfew)
  rw [valueAt, add_sub_cancel_left, offsetAt]
  unfold reach at hk
  split_ifs <;> omega

theorem Counted.succ (h : Counted i k e) (hi : i.InWord) (hempty : i.isEmpty = false)
    (hfew : k < reach ∨ (nearby i).length ≤ maxCandidates) :
    Counted i (k + 1) (if hits i k then e + 1 else e) := by
  unfold Counted at h ⊢
  rcases lt_or_ge k reach with hlt | hge
  · rw [ahead_of_lt hlt] at h
    split_ifs at h ⊢
    · rwa [List.length_cons, ← add_assoc, add_right_comm] at h
    · exact h
  · rw [not_hits_of_le hi hempty hge (hfew.resolve_left hge.not_gt), if_neg (by simp),
      ahead_of_le (by omega)]
    rwa [ahead_of_le hge] at h

theorem Counted.not_hits (h : Counted i k e) (hi : i.InWord) (hempty : i.isEmpty = false)
    (he : e < maxCandidates) (hnil : ahead i k = []) (hkj : k ≤ j) : hits i j = false := by
  have hfew : (nearby i).length < maxCandidates := by
    rw [← h, hnil]
    exact he
  rcases lt_or_ge j reach with hlt | hge
  · rcases ahead_cases i k with ⟨-, hmiss⟩ | ⟨m, -, -, -, -, hcons⟩
    · exact hmiss j hkj hlt
    · rw [hnil] at hcons
      cases hcons
  · exact not_hits_of_le hi hempty hge hfew.le

end Stages

section Calls

inductive Yields : Candidates → List Int → Candidates → Prop
  | nil {c : Candidates} : Yields c [] c
  | cons {c c' d : Candidates} {v : Int} {vs : List Int} :
      c.next = .ok (some v, c') → Yields c' vs d → Yields c (v :: vs) d

theorem Counted.yields (h : Counted i k e) (hi : i.InWord) (hk : k ≤ reach)
    (he : e ≤ maxCandidates) :
    ∃ k' e', Yields (stateAt i k e) ((ahead i k).take (maxCandidates - e)) (stateAt i k' e') ∧
      Counted i k' e' ∧ k' ≤ reach ∧ e' ≤ maxCandidates ∧
      (e' < maxCandidates → ahead i k' = []) := by
  induction hrest : maxCandidates - e generalizing k e with
  | zero => exact ⟨k, e, .nil, h, hk, he, by omega⟩
  | succ n ih =>
    rcases ahead_cases i k with ⟨hnil, -⟩ | ⟨j, hkj, hj, hhit, hfirst, hcons⟩
    · exact ⟨k, e, hnil ▸ .nil, h, hk, he, fun _ => hnil⟩
    · have hlast : reach < lastTurn ∧ lastTurn < 18446744073709551616 := by decide
      have hnext : (stateAt i k e).next = .ok (some (valueAt i j), stateAt i (j + 1) (e + 1)) :=
        nextWithin_of_hits hi (by omega) hkj (by omega) hhit hfirst (by omega)
      have hcount : Counted i (j + 1) (e + 1) := by
        rw [Counted, ← h, hcons, List.length_cons]
        omega
      obtain ⟨k', e', hyields, hstop⟩ := ih hcount hj (by omega) (by omega)
      refine ⟨k', e', ?_, hstop⟩
      rw [hcons, List.take_succ_cons]
      exact .cons hnext hyields

theorem next_of_stopped (hi : i.InWord) (hempty : i.isEmpty = false) (hk : k ≤ reach)
    (hmiss : e < maxCandidates → ∀ j, k ≤ j → hits i j = false) :
    (i.IsInner ∨ maxCandidates ≤ e) ∧
        (∃ c, (stateAt i k e).next = .ok (none, c) ∧ c.isOver = true) ∨
      (¬ i.IsInner ∧ e < maxCandidates) ∧ (stateAt i k e).next = .error .trap := by
  have hlast : reach < lastTurn := by decide
  rcases lt_or_ge e maxCandidates with hfew | hfull
  · by_cases hinner : i.IsInner
    · exact .inl ⟨.inl hinner,
        nextWithin_of_isInner hi hempty hinner (by omega) (hmiss hfew)⟩
    · exact .inr ⟨⟨hinner, hfew⟩,
        nextWithin_of_not_isInner hi hinner hfew (by omega) (hmiss hfew)⟩
  · have hover := (isOver_iff (i := i) (k := k)).mpr (.inl hfull)
    exact .inl ⟨.inr hfull, _, nextWithin_of_isOver hover, hover⟩

theorem yields_candidates (hi : i.InWord) (hempty : i.isEmpty = false) :
    ∃ last, Yields (ofInterval i) (candidates i) last ∧
      ((i.IsInner ∨ (candidates i).length = maxCandidates) ∧
          (∃ c, last.next = .ok (none, c) ∧ c.isOver = true) ∨
        (¬ i.IsInner ∧ (candidates i).length < maxCandidates) ∧ last.next = .error .trap) := by
  obtain ⟨k, e, hyields, hcount, hk, he, hstop⟩ :=
    (counted_zero (i := i)).yields hi (Nat.zero_le _) (Nat.zero_le _)
  have heq : candidates i = (ahead i 0).take (maxCandidates - 0) := by
    rw [← nearby_eq]
    rfl
  have hlen : (candidates i).length = e := by
    rw [heq, List.length_take, ← nearby_eq, ← hcount]
    rcases he.eq_or_lt with rfl | hlt
    · omega
    · rw [hstop hlt, List.length_nil]
      omega
  have hnext := next_of_stopped hi hempty hk fun hlt j hj =>
    hcount.not_hits hi hempty hlt (hstop hlt) hj
  refine ⟨_, heq ▸ hyields, ?_⟩
  rwa [hlen, ← he.ge_iff_eq]

end Calls

section Reachable

def Moves (c d : Candidates) : Prop := c.isOver = false ∧ ∃ v, c.turn = .ok (v, d)

def Reaches : Candidates → Candidates → Prop := Relation.ReflTransGen Moves

theorem Moves.eq_stateAt {d : Candidates} (h : Moves (stateAt i k e) d) (hi : i.InWord)
    (hk : k < lastTurn) : d = stateAt i (k + 1) (if hits i k then e + 1 else e) := by
  obtain ⟨-, v, hturn⟩ := h
  rw [turn_stateAt hi hk] at hturn
  exact (Prod.ext_iff.mp (Except.ok.inj hturn)).2.symm

theorem not_hits_of_isExhaustive (hempty : i.isEmpty = false) (hex : isExhaustive i = true)
    (hk : 2 * maxCandidates ≤ k + 1) : hits i k = false := by
  rw [Bool.eq_false_iff, Ne, hits_iff]
  rintro ⟨hmem, -⟩
  have hnearest := Interval.mem_nearest hempty
  obtain ⟨_ | l, _ | h⟩ := i
  case some.some =>
    have hspan : h - l < maxCandidates := by simpa [isExhaustive] using hex
    rw [Interval.mem_iff_ends rfl rfl] at hmem hnearest
    rw [valueAt, offsetAt] at hmem
    split_ifs at hmem <;> omega
  all_goals cases hex

theorem Counted.isOver {d : Nat} (h : Counted i (2 * d + 1) e) (hd : d + 1 = maxCandidates)
    (hi : i.InWord) (hempty : i.isEmpty = false) (hex : isExhaustive i = true)
    (hends : i.IsInner ∨ maxCandidates ≤ (nearby i).length) :
    (stateAt i (2 * d + 1) e).isOver = true := by
  have hmiss (m : Nat) (hm : 2 * d + 1 ≤ m) : hits i m = false :=
    not_hits_of_isExhaustive hempty hex (by omega)
  rw [isOver_iff]
  rcases hends with hinner | hmany
  · exact .inr (isSpent_of_not_hits hi hempty hinner (hmiss _ le_rfl) (hmiss _ (by omega)))
  · rcases ahead_cases i (2 * d + 1) with ⟨hnil, -⟩ | ⟨j, hj, -, hhit, -⟩
    · rw [Counted, hnil, List.length_nil, add_zero] at h
      exact .inl (h ▸ hmany)
    · rw [hmiss j hj] at hhit
      cases hhit

theorem offset_le (hi : i.InWord) (hempty : i.isEmpty = false) (hex : isExhaustive i = true)
    (hends : i.IsInner ∨ maxCandidates ≤ (nearby i).length) {c : Candidates}
    (h : Reaches (ofInterval i) c) : c.offset ≤ maxCandidates := by
  have hinv : ∃ k e, c = stateAt i k e ∧ Counted i k e ∧ k + 1 ≤ 2 * maxCandidates := by
    induction h with
    | refl => exact ⟨0, 0, ofInterval_eq, counted_zero, by decide⟩
    | tail _ hmove ih =>
      obtain ⟨k, e, rfl, hcount, hk⟩ := ih
      have hlast : 2 * maxCandidates < reach ∧ reach < lastTurn := by decide
      obtain rfl := hmove.eq_stateAt hi (by omega)
      refine ⟨_, _, rfl, hcount.succ hi hempty (.inl (by omega)), ?_⟩
      by_contra hgt
      obtain ⟨d, hd, rfl⟩ : ∃ d, d + 1 = maxCandidates ∧ k = 2 * d + 1 :=
        ⟨maxCandidates - 1, by decide, by omega⟩
      exact Bool.false_ne_true (hmove.1.symm.trans (hcount.isOver hd hi hempty hex hends))
  obtain ⟨k, e, rfl, -, hk⟩ := hinv
  change (((k + 1) / 2 : Nat) : Int) ≤ _
  omega

theorem reaches_stateAt (hi : i.InWord) (hempty : i.isEmpty = false) (hinner : ¬ i.IsInner)
    (hfew : (nearby i).length < maxCandidates) (hk : k ≤ lastTurn) :
    ∃ e, Counted i k e ∧ Reaches (ofInterval i) (stateAt i k e) := by
  induction k with
  | zero => exact ⟨0, counted_zero, .refl⟩
  | succ k ih =>
    obtain ⟨e, hcount, hreach⟩ := ih (by omega)
    have he : e < maxCandidates := by
      unfold Counted at hcount
      omega
    refine ⟨_, hcount.succ hi hempty (.inr hfew.le), hreach.tail ⟨?_, _, turn_stateAt hi hk⟩⟩
    exact isOver_of_not_isInner hinner he

end Reachable

/-- The enumeration of an interval of words hands out its first words, without repetition. It ends
where it has handed out as many as are tried, or where both ends lie inside the word range, and in
an interval that is not truncated it then never looks farther than `maxCandidates` away. Elsewhere
the end of the word range keeps one side from ever counting as left, so that the enumeration runs on
until the distance overflows. -/
theorem enumeration_first_words (hi : i.InWord) (hempty : i.isEmpty = false) :
    ∃ vs last, Yields (ofInterval i) vs last ∧ FirstWords i vs ∧ vs.Nodup ∧
      (isExhaustive i = true → ∀ v, v ∈ vs ↔ i.Mem v) ∧
      (i.IsInner ∨ vs.length = maxCandidates →
        (∃ c, last.next = .ok (none, c) ∧ c.isOver = true) ∧
        (isExhaustive i = true → ∀ c, Reaches (ofInterval i) c → c.offset ≤ maxCandidates)) ∧
      (¬ i.IsInner → vs.length < maxCandidates →
        last.next = .error .trap ∧
        ∃ c, Reaches (ofInterval i) c ∧ c.offset = Word.greatest) := by
  obtain ⟨last, hyields, hlast⟩ := yields_candidates hi hempty
  have hwords := candidates_firstWords hi hempty
  have hlen : (candidates i).length = min maxCandidates (nearby i).length := List.length_take
  refine ⟨_, last, hyields, hwords, nodup_nearby.sublist (List.take_sublist ..), fun hex v =>
    ⟨fun hv => (hwords.mem v hv).1, mem_candidates hi hex⟩, fun hends => ⟨?_, fun hex c hc => ?_⟩,
    fun hinner hfew => ⟨?_, ?_⟩⟩
  · rcases hlast with ⟨-, hend⟩ | ⟨⟨hinner, hfew⟩, -⟩
    · exact hend
    · exact absurd hends (not_or.mpr ⟨hinner, hfew.ne⟩)
  · exact offset_le hi hempty hex (hends.imp_right fun hfull => by omega) hc
  · rcases hlast with ⟨hends, -⟩ | ⟨-, hoverflow⟩
    · exact absurd hends (not_or.mpr ⟨hinner, hfew.ne⟩)
    · exact hoverflow
  · obtain ⟨e, -, hreaches⟩ := reaches_stateAt hi hempty hinner (by omega) le_rfl
    exact ⟨_, hreaches, rfl⟩

def belowGreatest : Interval := ⟨some (Word.greatest - 3), some (Word.greatest - 1)⟩

theorem belowGreatest_ends : belowGreatest.InWord ∧ belowGreatest.isEmpty = false ∧
    ∃ vs last, Yields (ofInterval belowGreatest) vs last ∧ vs.Pairwise Nearer ∧
      (∀ v, v ∈ vs ↔ belowGreatest.Mem v) ∧ (∃ c, last.next = .ok (none, c) ∧ c.isOver = true) ∧
      ∀ c, Reaches (ofInterval belowGreatest) c → c.offset ≤ maxCandidates := by
  have hi : belowGreatest.InWord := by
    constructor <;> rintro _ ⟨⟩ <;> decide
  have hinner : belowGreatest.IsInner := ⟨_, _, rfl, rfl, by decide, by decide⟩
  obtain ⟨vs, last, hyields, hwords, -, hall, hends, -⟩ := enumeration_first_words hi rfl
  exact ⟨hi, rfl, vs, last, hyields, hwords.sorted, hall rfl, (hends (.inl hinner)).1,
    (hends (.inl hinner)).2 rfl⟩

def onlyGreatest : Interval := ⟨some Word.greatest, some Word.greatest⟩

theorem onlyGreatest_never_ends :
    onlyGreatest.InWord ∧ onlyGreatest.isEmpty = false ∧ isExhaustive onlyGreatest = true ∧
      (∃ c, (ofInterval onlyGreatest).next = .ok (some Word.greatest, c) ∧
        c.next = .error .trap) ∧
      ∃ c, Reaches (ofInterval onlyGreatest) c ∧ maxCandidates < c.offset := by
  have hi : onlyGreatest.InWord := by
    constructor <;> rintro _ ⟨⟩ <;> decide
  have hinner : ¬ onlyGreatest.IsInner := by
    rintro ⟨_, _, ⟨⟩, ⟨⟩, -, h⟩
    exact lt_irrefl _ h
  have hmiss (m : Nat) (hm : 1 ≤ m) : hits onlyGreatest m = false := by
    rw [Bool.eq_false_iff, Ne, hits_iff, Interval.mem_iff_ends rfl rfl, valueAt, offsetAt]
    change ¬ ((Word.greatest ≤ Word.greatest + _ ∧ Word.greatest + _ ≤ Word.greatest) ∧ _)
    split_ifs <;> omega
  have hfew : (nearby onlyGreatest).length < maxCandidates := by
    have hends (v : Int) (hv : v ∈ nearby onlyGreatest) : Word.greatest ≤ v ∧ v ≤ Word.greatest :=
      (Interval.mem_iff_ends rfl rfl).mp (mem_nearby.mp hv).2.1
    have hlen := length_le_of_nodup nodup_nearby hends
    unfold maxCandidates
    omega
  obtain ⟨e, -, hreaches⟩ := reaches_stateAt hi rfl hinner hfew le_rfl
  have hfar : (maxCandidates : Int) < Word.greatest := by decide
  refine ⟨hi, rfl, rfl, ⟨stateAt onlyGreatest 1 1, rfl, ?_⟩, _, hreaches, hfar⟩
  exact nextWithin_of_not_isInner hi hinner (by decide) (by decide) hmiss

end Candidates

end LoopAudit.Sample
