import LoopAudit.Proofs.Elimination

/-! Exact projection of systems over the integers. Where every pair of bounds has a unit side the
real shadow is the projection; elsewhere a point outside the dark shadow lies on one of the slices
just above a lower bound. Congruences are removed by splitting the name into its residues. -/

namespace LoopAudit.System

open Function Fallible

section Bounds

variable {a b l u m v : Int}

theorem exists_between {ms ns : List Int} (h : ∀ m ∈ ms, ∀ n ∈ ns, m ≤ n) :
    ∃ v, (∀ m ∈ ms, m ≤ v) ∧ ∀ n ∈ ns, v ≤ n := by
  induction ms with
  | nil =>
    suffices hlow : ∃ v, ∀ n ∈ ns, v ≤ n from hlow.imp fun v hv => ⟨nofun, hv⟩
    clear h
    induction ns with
    | nil => exact ⟨0, nofun⟩
    | cons n ns ih =>
      obtain ⟨v, hv⟩ := ih
      refine ⟨min n v, List.forall_mem_cons.mpr ⟨min_le_left .., fun k hk => ?_⟩⟩
      exact (min_le_right ..).trans (hv k hk)
  | cons m ms ih =>
    obtain ⟨hm, hms⟩ := List.forall_mem_cons.mp h
    obtain ⟨v, hlow, hhigh⟩ := ih hms
    refine ⟨max m v, List.forall_mem_cons.mpr ⟨le_max_left .., fun k hk => ?_⟩, fun n hn => ?_⟩
    · exact (hlow k hk).trans (le_max_right ..)
    · exact max_le (hm n hn) (hhigh n hn)

theorem lower_iff (ha : 0 < a) : 0 ≤ a * v + l ↔ -(l / a) ≤ v := by
  rw [neg_le, Int.le_ediv_iff_mul_le ha]
  constructor <;> intro h <;> linarith

theorem upper_iff (hb : b < 0) : 0 ≤ b * v + u ↔ v ≤ u / -b := by
  rw [Int.le_ediv_iff_mul_le (neg_pos.mpr hb)]
  constructor <;> intro h <;> linarith

theorem gap_nonneg (ha : 0 < a) (hb : 0 < b) (h : -(l / a) ≤ u / b) : 0 ≤ b * l + a * u := by
  have hl := Int.ediv_mul_le l ha.ne'
  have hu := Int.ediv_mul_le u hb.ne'
  nlinarith [mul_le_mul_of_nonneg_left hl hb.le, mul_le_mul_of_nonneg_left hu ha.le,
    mul_le_mul_of_nonneg_left h (mul_pos ha hb).le]

theorem le_of_unit_gap (ha : 0 < a) (hb : 0 < b) (hunit : a = 1 ∨ b = 1)
    (h : 0 ≤ b * l + a * u) : -(l / a) ≤ u / b := by
  rcases hunit with rfl | rfl
  · rw [Int.ediv_one, Int.le_ediv_iff_mul_le hb]
    linarith
  · rw [Int.ediv_one, neg_le, Int.le_ediv_iff_mul_le ha]
    linarith

/-- A gap of at least `(a - 1)(b - 1)` holds an integer. -/
theorem le_of_dark_gap (ha : 0 < a) (hb : 0 < b) (h : (a - 1) * (b - 1) ≤ b * l + a * u) :
    -(l / a) ≤ u / b := by
  have hl := Int.emod_lt_of_pos l ha
  have hu := Int.emod_lt_of_pos u hb
  have hl' := Int.mul_ediv_add_emod l a
  have hu' := Int.mul_ediv_add_emod u b
  by_contra hlt
  have hgap : l / a + u / b ≤ -1 := by linarith [not_le.mp hlt]
  nlinarith [mul_le_mul_of_nonneg_left hgap (mul_pos ha hb).le]

/-- A solution in a smaller gap lies at most `(m·a - a - m) / m` above its lower bound, for every
`m` from `b` on. -/
theorem slice_le (ha : 0 < a) (hb : 0 < b) (hbm : b ≤ m) (hu : 0 ≤ -b * v + u)
    (h : b * l + a * u < (a - 1) * (b - 1)) : a * v + l ≤ (m * a - (a + m)) / m := by
  have hm : 0 < m := hb.trans_le hbm
  have hroom : a ≤ b * (a - 1 - (a * v + l)) := by nlinarith
  have hpos : 0 ≤ a - 1 - (a * v + l) := by
    by_contra hneg
    nlinarith [not_le.mp hneg]
  rw [Int.le_ediv_iff_mul_le hm]
  nlinarith [mul_le_mul_of_nonneg_right hbm hpos]

end Bounds

variable {V : String → Prop} {s t : System} {c d : Constraint} {e l u : Affine} {x : String}
  {ts found out : List System} {P : (String → Int) → Prop} {ρ : String → Int} {v : Int}

def BoundsOnly (x : String) (s : System) : Prop :=
  ∀ c ∈ s, c.form.coeff x ≠ 0 → c.relation = .ge

theorem holds_update_iff_bounds (hs : ∀ c ∈ s, c.WellFormed V) (hge : BoundsOnly x s) :
    s.Holds (update ρ x v) ↔ (s.free x).Holds ρ ∧
      (∀ l ∈ s.lowerBounds x, -(l.eval (update ρ x 0) / l.coeff x) ≤ v) ∧
      ∀ u ∈ s.upperBounds x, v ≤ u.eval (update ρ x 0) / -u.coeff x := by
  have heval (c : Constraint) (hc : c ∈ s) :
      c.form.eval (update ρ x v) = c.form.coeff x * v + c.form.eval (update ρ x 0) :=
    Affine.eval_update_eq (hs c hc).form.canonical
  have hfree (c : Constraint) (hc : c ∈ s.free x) : c.Holds (update ρ x v) ↔ c.Holds ρ :=
    Constraint.holds_congr (free_wellFormed hs c hc) fun _ hy => update_of_ne hy.2 v ρ
  constructor
  · intro h
    refine ⟨fun c hc => (hfree c hc).mp (h c (mem_free.mp hc).1), fun l hl => ?_, fun u hu => ?_⟩
    · obtain ⟨hc, ha⟩ := mem_lowerBounds.mp hl
      exact (lower_iff ha).mp (heval _ hc ▸ h _ hc)
    · obtain ⟨hc, hb⟩ := mem_upperBounds.mp hu
      exact (upper_iff hb).mp (heval _ hc ▸ h _ hc)
  · rintro ⟨hrest, hlower, hupper⟩ c hc
    rcases lt_trichotomy (c.form.coeff x) 0 with hneg | hzero | hpos
    · have hc' : c = .ge c.form := by rw [Constraint.ge, ← hge c hc hneg.ne]
      rw [hc', Constraint.ge_holds_iff, heval c hc, upper_iff hneg]
      exact hupper c.form (mem_upperBounds.mpr ⟨hc' ▸ hc, hneg⟩)
    · have hmem : c ∈ s.free x := mem_free.mpr ⟨hc, hzero⟩
      exact (hfree c hmem).mpr (hrest c hmem)
    · have hc' : c = .ge c.form := by rw [Constraint.ge, ← hge c hc hpos.ne']
      rw [hc', Constraint.ge_holds_iff, heval c hc, lower_iff hpos]
      exact hlower c.form (mem_lowerBounds.mpr ⟨hc' ▸ hc, hpos⟩)

theorem exists_holds_iff_bounds (hs : ∀ c ∈ s, c.WellFormed V) (hge : BoundsOnly x s) :
    (∃ v, s.Holds (update ρ x v)) ↔ (s.free x).Holds ρ ∧
      ∀ l ∈ s.lowerBounds x, ∀ u ∈ s.upperBounds x,
        -(l.eval (update ρ x 0) / l.coeff x) ≤ u.eval (update ρ x 0) / -u.coeff x := by
  simp only [holds_update_iff_bounds hs hge]
  constructor
  · rintro ⟨v, hrest, hlower, hupper⟩
    exact ⟨hrest, fun l hl u hu => (hlower l hl).trans (hupper u hu)⟩
  · rintro ⟨hrest, hpairs⟩
    have hends : ∀ m ∈ (s.lowerBounds x).map fun l => -(l.eval (update ρ x 0) / l.coeff x),
        ∀ n ∈ (s.upperBounds x).map fun u => u.eval (update ρ x 0) / -u.coeff x, m ≤ n := by
      simpa using hpairs
    obtain ⟨v, hlow, hhigh⟩ := exists_between hends
    exact ⟨v, hrest, by simpa using hlow, by simpa using hhigh⟩

theorem darkPair_spec (hl : l.Over V) (hu : u.Over V) (h : darkPair x (l, u) = .ok c) :
    c.WellFormed (Avoiding V x) ∧
      ∀ ρ, c.Holds ρ ↔ (l.coeff x - 1) * (-u.coeff x - 1) ≤ pairValue x l u ρ := by
  simp only [darkPair, bind_eq_ok, exact_eq_ok_iff] at h
  obtain ⟨b, hb, k, ⟨-, rfl⟩, g', hg', h⟩ := h
  cases h
  obtain ⟨g, rfl, hg, heval⟩ := realPair_spec hl hu hb
  obtain ⟨hover, heval'⟩ := Affine.addConstant_spec hg hg'
  refine ⟨.ge hover, fun ρ => ?_⟩
  rw [Constraint.ge_holds_iff, heval', heval, ← sub_eq_add_neg, sub_nonneg]

theorem slice_describes {e : Affine} {i : Int} {o : Option System} (hs : ∀ c ∈ s, c.WellFormed V)
    (hl : l.Over V) (hx : l.coeff x ≠ 0) (he : l.addConstant (-i) = .ok e)
    (h : s.slice x e = .ok o) :
    Describes (Avoiding V x)
      (fun ρ => ∃ v, s.Holds (update ρ x v) ∧ l.eval (update ρ x v) = i) o.toList := by
  obtain ⟨hover, heval⟩ := Affine.addConstant_spec hl he
  have hwf : ∀ c ∈ s ++ [.eq e], c.WellFormed V := by
    intro c hc
    rcases List.mem_append.mp hc with hc | hc
    · exact hs c hc
    · exact List.mem_singleton.mp hc ▸ .eq hover
  have hall (σ : String → Int) :
      (∀ c ∈ s ++ [.eq e], c.Holds σ) ↔ s.Holds σ ∧ l.eval σ = i := by
    rw [List.forall_mem_append, List.forall_mem_singleton, Constraint.eq_holds_iff, heval,
      add_neg_eq_zero]
    exact Iff.rfl
  obtain ⟨u, hu, h⟩ := bind_eq_ok.mp h
  have hdesc := ofList?_describes hwf hu
  cases u with
  | none =>
    cases h
    exact .nil fun ρ ⟨v, hv⟩ => hdesc.not_of_none ((hall _).mpr hv)
  | some t =>
    obtain ⟨htwf, htiff⟩ := hdesc.of_some
    simp only at h
    split at h
    · next g others hpivot =>
      refine (eliminatePivot_describes htwf.each hpivot h).congr fun ρ => ?_
      exact exists_congr fun v => (htiff _).trans (hall _)
    · next hpivot =>
      -- The slice itself leaves an equality on the name, so there is a pivot.
      exfalso
      obtain ⟨t₀, _, ⟨⟩, hins⟩ := insert_of_insertEach_concat hu
      have hxs : x ∈ e.vars := by
        rw [hover.canonical.mem_vars_iff, Affine.coeff_of_eval hover.canonical hl.canonical
          hl.canonical (a := 1) (b := 0) (k := -i) fun ρ => by rw [heval]; ring]
        simpa using hx
      obtain ⟨d, hd, hr, hxd⟩ := exists_eq_of_insert hover hxs hins
      exact pivot?_eq_none hpivot d hd hr hxd

theorem splinters_describes {count : Nat} {i : Int} (hs : ∀ c ∈ s, c.WellFormed V) (hl : l.Over V)
    (hx : l.coeff x ≠ 0) (hfound : Describes (Avoiding V x) P found)
    (h : splinters s x l count i found = .ok out) :
    Describes (Avoiding V x) (fun ρ => P ρ ∨
      ∃ v, s.Holds (update ρ x v) ∧ i ≤ l.eval (update ρ x v) ∧ l.eval (update ρ x v) < i + count)
      out := by
  induction count generalizing i P found with
  | zero =>
    cases h
    refine hfound.congr fun ρ => ?_
    refine ⟨.inl, fun h => h.elim id fun ⟨v, _, hlow, hhigh⟩ => ?_⟩
    exact absurd hhigh (by simpa using hlow)
  | succ count ih =>
    simp only [splinters, bind_eq_ok] at h
    obtain ⟨e, he, o, ho, h⟩ := h
    split_ifs at h
    have hslice := hfound.append (slice_describes hs hl hx he ho)
    refine (ih hslice h).congr fun ρ => ?_
    rw [or_assoc, ← exists_or]
    refine or_congr Iff.rfl (exists_congr fun v => ?_)
    rw [← and_or_left]
    refine and_congr Iff.rfl ?_
    push_cast
    omega

theorem le_foldl_max {β : Type} {f : β → Int} {us : List β} {m : Int} :
    m ≤ us.foldl (fun m u => max m (f u)) m ∧
      ∀ u ∈ us, f u ≤ us.foldl (fun m u => max m (f u)) m := by
  induction us generalizing m with
  | nil => exact ⟨le_rfl, nofun⟩
  | cons u us ih =>
    obtain ⟨hm, hus⟩ := ih (m := max m (f u))
    exact ⟨(le_max_left ..).trans hm,
      List.forall_mem_cons.mpr ⟨(le_max_right ..).trans hm, hus⟩⟩

/-- How many slices above a lower bound with coefficient `a` can hold a point that the dark shadow
misses. -/
def missedSlices (m a : Int) : Nat := ((m * a - (a + m)) / m + 1).toNat

def OnMissedSlice (s : System) (x : String) (m : Int) (l : Affine) (ρ : String → Int) : Prop :=
  ∃ v, s.Holds (update ρ x v) ∧ 0 ≤ l.eval (update ρ x v) ∧
    l.eval (update ρ x v) < missedSlices m (l.coeff x)

theorem sliceCount_eq {m : Int} {n : Nat} (h : sliceCount m l x = .ok n) :
    n = missedSlices m (l.coeff x) := by
  simp only [sliceCount, bind_eq_ok, exact_eq_ok_iff, trapping_eq_ok_iff] at h
  obtain ⟨_, ⟨-, rfl⟩, _, ⟨-, rfl⟩, _, ⟨-, rfl⟩, h⟩ := h
  exact (Except.ok.inj h).symm

theorem lower_coeff_pos (hl : l ∈ s.lowerBounds x) : 0 < l.coeff x := (mem_lowerBounds.mp hl).2

theorem upper_coeff_pos (hu : u ∈ s.upperBounds x) : 0 < -u.coeff x :=
  neg_pos.mpr (mem_upperBounds.mp hu).2

theorem lt_missedSlices {m : Int} (hs : ∀ c ∈ s, c.WellFormed V) (hl : l ∈ s.lowerBounds x)
    (hu : u ∈ s.upperBounds x) (hum : -u.coeff x ≤ m) (hv : s.Holds (update ρ x v))
    (hgap : pairValue x l u ρ < (l.coeff x - 1) * (-u.coeff x - 1)) :
    l.eval (update ρ x v) < missedSlices m (l.coeff x) := by
  have hupper : 0 ≤ - -u.coeff x * v + u.eval (update ρ x 0) := by
    rw [neg_neg, ← Affine.eval_update_eq (upperBounds_over hs u hu).canonical]
    exact hv _ (mem_upperBounds.mp hu).1
  have hslice := slice_le (lower_coeff_pos hl) (upper_coeff_pos hu) hum hupper hgap
  have hnonneg : 0 ≤ l.eval (update ρ x v) := hv _ (mem_lowerBounds.mp hl).1
  rw [← Affine.eval_update_eq (lowerBounds_over hs l hl).canonical] at hslice
  unfold missedSlices
  omega

theorem lowerSlices_describes {m : Int} (hs : ∀ c ∈ s, c.WellFormed V) (hl : l ∈ s.lowerBounds x)
    (hfound : Describes (Avoiding V x) P found)
    (h : (do splinters s x l (← sliceCount m l x) 0 found) = .ok out) :
    Describes (Avoiding V x) (fun ρ => P ρ ∨ OnMissedSlice s x m l ρ) out := by
  obtain ⟨n, hn, h⟩ := bind_eq_ok.mp h
  rw [sliceCount_eq hn] at h
  simpa only [OnMissedSlice, zero_add] using
    splinters_describes hs (lowerBounds_over hs l hl) (lower_coeff_pos hl).ne' hfound h

theorem unit_shadow_iff (hs : ∀ c ∈ s, c.WellFormed V) (hge : BoundsOnly x s)
    (hunit : ∀ l ∈ s.lowerBounds x, ∀ u ∈ s.upperBounds x, l.coeff x = 1 ∨ -u.coeff x = 1) :
    ((s.free x).Holds ρ ∧
      ∀ l ∈ s.lowerBounds x, ∀ u ∈ s.upperBounds x, 0 ≤ pairValue x l u ρ) ↔
      ∃ v, s.Holds (update ρ x v) := by
  rw [exists_holds_iff_bounds hs hge]
  refine and_congr Iff.rfl (forall₂_congr fun l hl => forall₂_congr fun u hu => ?_)
  have ha := lower_coeff_pos hl
  have hb := upper_coeff_pos hu
  exact ⟨le_of_unit_gap ha hb (hunit l hl u hu), gap_nonneg ha hb⟩

theorem realPairing_describes {rest : System} {o : Option System} (hs : ∀ c ∈ s, c.WellFormed V)
    (hge : BoundsOnly x s)
    (hunit : ∀ l ∈ s.lowerBounds x, ∀ u ∈ s.upperBounds x, l.coeff x = 1 ∨ -u.coeff x = 1)
    (hrest : ofList? (s.free x) = .ok (some rest))
    (h : insertEach (realPair x) rest (pairs (s.lowerBounds x) (s.upperBounds x)) = .ok o) :
    Describes (Avoiding V x) (fun ρ => ∃ v, s.Holds (update ρ x v)) o.toList := by
  have hreal := pairing_describes hs (fun l u c hl hu hc => realPair_holds hl hu hc) hrest h
  exact hreal.congr fun ρ => unit_shadow_iff hs hge hunit

theorem shadow_describes {o : Option System} (hs : ∀ c ∈ s, c.WellFormed V)
    (hexact : s.pivot? x = none → BoundsOnly x s ∧
      ∀ l ∈ s.lowerBounds x, ∀ u ∈ s.upperBounds x, l.coeff x = 1 ∨ -u.coeff x = 1)
    (h : s.shadow x = .ok o) :
    Describes (Avoiding V x) (fun ρ => ∃ v, s.Holds (update ρ x v)) o.toList := by
  unfold shadow at h
  split at h
  · next e others hpivot => exact eliminatePivot_describes hs hpivot h
  next hpivot =>
  obtain ⟨hge, hunit⟩ := hexact hpivot
  obtain ⟨u, hrest, h⟩ := bind_eq_ok.mp h
  cases u with
  | none =>
    cases h
    refine .nil fun ρ hρ => ?_
    exact not_free_holds_of_none hs hrest ((exists_holds_iff_bounds hs hge).mp hρ).1
  | some rest => exact realPairing_describes hs hge hunit hrest h

/-- Dark shadow and slices together are the projection: where some gap is too small to force an
integer into it, a solution lies on a slice of that gap's lower bound. -/
theorem dark_or_slice_iff {m : Int} (hs : ∀ c ∈ s, c.WellFormed V) (hge : BoundsOnly x s)
    (hm : ∀ u ∈ s.upperBounds x, -u.coeff x ≤ m) :
    ((s.free x).Holds ρ ∧ ∀ l ∈ s.lowerBounds x, ∀ u ∈ s.upperBounds x,
        (l.coeff x - 1) * (-u.coeff x - 1) ≤ pairValue x l u ρ) ∨
      (∃ l ∈ s.lowerBounds x, OnMissedSlice s x m l ρ) ↔ ∃ v, s.Holds (update ρ x v) := by
  constructor
  · rintro (⟨hfree, hdark⟩ | ⟨l, -, v, hv, -⟩)
    · refine (exists_holds_iff_bounds hs hge).mpr ⟨hfree, fun l hl u hu => ?_⟩
      exact le_of_dark_gap (lower_coeff_pos hl) (upper_coeff_pos hu) (hdark l hl u hu)
    · exact ⟨v, hv⟩
  · rintro ⟨v, hv⟩
    by_cases hdark : ∀ l ∈ s.lowerBounds x, ∀ u ∈ s.upperBounds x,
        (l.coeff x - 1) * (-u.coeff x - 1) ≤ pairValue x l u ρ
    · exact .inl ⟨((exists_holds_iff_bounds hs hge).mp ⟨v, hv⟩).1, hdark⟩
    · -- A gap that the dark shadow rejects bounds how far the solution is above that lower bound.
      push Not at hdark
      obtain ⟨l, hl, u, hu, hgap⟩ := hdark
      exact .inr ⟨l, hl, v, hv, hv _ (mem_lowerBounds.mp hl).1,
        lt_missedSlices hs hl hu (hm u hu) hv hgap⟩

theorem eliminateBounds_describes (hs : ∀ c ∈ s, c.WellFormed V) (hge : BoundsOnly x s)
    (h : s.eliminateBounds x = .ok ts) :
    Describes (Avoiding V x) (fun ρ => ∃ v, s.Holds (update ρ x v)) ts := by
  obtain ⟨u, hrest, h⟩ := bind_eq_ok.mp h
  cases u with
  | none =>
    cases h
    refine .nil fun ρ hρ => ?_
    exact not_free_holds_of_none hs hrest ((exists_holds_iff_bounds hs hge).mp hρ).1
  | some rest =>
    simp only at h
    split_ifs at h with hunit
    · obtain ⟨o, ho, h⟩ := bind_eq_ok.mp h
      cases h
      refine realPairing_describes hs hge (fun l hl u hu => ?_) hrest ho
      have hlu := List.all_eq_true.mp (List.all_eq_true.mp hunit l hl) u hu
      simpa [neg_eq_iff_eq_neg] using hlu
    · obtain ⟨o, ho, h⟩ := bind_eq_ok.mp h
      have hdark := pairing_describes hs (fun l u c hl hu hc => darkPair_spec hl hu hc) hrest ho
      have hm : ∀ u ∈ s.upperBounds x, -u.coeff x ≤
          (s.upperBounds x).foldl (fun m u => max m (-u.coeff x)) 1 := le_foldl_max.2
      generalize (s.upperBounds x).foldl (fun m u => max m (-u.coeff x)) 1 = m at h hm
      have hall := hdark.foldlM (R := OnMissedSlice s x m)
        (fun P found out l hl hfound hout => lowerSlices_describes hs hl hfound hout) h
      exact hall.congr fun ρ => dark_or_slice_iff hs hge hm

section Residues

variable {p r : Int}

def HasPeriod (s : System) (x : String) (p : Int) : Prop :=
  ∀ c ∈ s, ∀ m, c.relation = .mod m → x ∈ c.form.vars → m ∣ p

theorem dvd_lcm_step {p m : Int} : p ∣ p / p.gcd m * m ∧ m ∣ p / p.gcd m * m := by
  refine ⟨?_, dvd_mul_left ..⟩
  obtain ⟨k, hk⟩ := Int.gcd_dvd_right p m
  have hp := Int.ediv_mul_cancel (Int.gcd_dvd_left p m)
  exact ⟨k, by nth_rewrite 2 [hk]; rw [← mul_assoc, hp]⟩

theorem lcm_step_pos {p m : Int} (hp : 0 < p) (hm : 0 < m) : 0 < p / p.gcd m * m := by
  have hg : (0 : Int) < p.gcd m := by exact_mod_cast Int.gcd_pos_of_ne_zero_left m hp.ne'
  exact mul_pos (Int.ediv_pos_of_pos_of_dvd hp hg.le (Int.gcd_dvd_left p m)) hm

theorem joinPeriod_spec {p' : Int} (hc : c.WellFormed V) (hp : 0 < p)
    (h : joinPeriod x p c = .ok p') :
    0 < p' ∧ p ∣ p' ∧ ∀ m, c.relation = .mod m → x ∈ c.form.vars → m ∣ p' := by
  unfold joinPeriod at h
  split at h
  · next m hm =>
    split_ifs at h with hx
    · obtain ⟨-, rfl⟩ := exact_eq_ok_iff.mp h
      refine ⟨lcm_step_pos hp (hc.modulus_pos m hm), dvd_lcm_step.1, fun m' hm' _ => ?_⟩
      obtain rfl : m = m' := by simpa [hm] using hm'
      exact dvd_lcm_step.2
    · cases h
      exact ⟨hp, dvd_rfl, fun _ _ hx' => absurd (Affine.mentions_iff.mpr hx') hx⟩
  · next hr =>
    cases h
    exact ⟨hp, dvd_rfl, fun m hm => absurd hm (hr m)⟩

theorem foldlM_joinPeriod {p' : Int} {cs : List Constraint} (hcs : ∀ c ∈ cs, c.WellFormed V)
    (hp : 0 < p) (h : cs.foldlM (joinPeriod x) p = .ok p') :
    0 < p' ∧ p ∣ p' ∧ HasPeriod cs x p' := by
  induction cs generalizing p with
  | nil =>
    cases h
    exact ⟨hp, dvd_rfl, nofun⟩
  | cons c cs ih =>
    obtain ⟨hc, hcs⟩ := List.forall_mem_cons.mp hcs
    obtain ⟨q, hq, h⟩ := bind_eq_ok.mp h
    obtain ⟨hq0, hpq, hcq⟩ := joinPeriod_spec hc hp hq
    obtain ⟨hp', hqp, hrest⟩ := ih hcs hq0 h
    refine ⟨hp', hpq.trans hqp, List.forall_mem_cons.mpr ⟨fun m hm hx => ?_, hrest⟩⟩
    exact (hcq m hm hx).trans hqp

theorem period_spec (hs : s.WellFormed V) (h : s.period x = .ok p) : 0 < p ∧ s.HasPeriod x p := by
  obtain ⟨hp, -, hdvd⟩ := foldlM_joinPeriod hs.each one_pos h
  exact ⟨hp, hdvd⟩

theorem boundsOnly_of_period_one (hs : s.WellFormed V) (hpivot : s.pivot? x = none)
    (hdvd : s.HasPeriod x 1) : BoundsOnly x s := by
  intro c hc hx
  have hmem : x ∈ c.form.vars := (hs.normal c hc).form.canonical.mem_vars_iff.mpr hx
  cases hr : c.relation with
  | eq => exact absurd hmem (pivot?_eq_none hpivot c hc hr)
  | ge => rfl
  | mod m =>
    have hm := ((hs.normal c hc).mod_range hr).1
    exact absurd (Int.le_of_dvd one_pos (hdvd c hc m hr hmem)) (not_le.mpr hm)

theorem boundsOnly_of_substitute {shifted : List Constraint} (hs : s.WellFormed V)
    (hpivot : s.pivot? x = none) (hdvd : s.HasPeriod x p) (he : e.Over V) (hp : e.coeff x = p)
    (hshifted : s.mapM (fun c => c.substitute x e) = .ok shifted)
    (ht : ofList? shifted = .ok (some t)) : BoundsOnly x t := by
  intro d hd hx
  obtain ⟨c', hc', hnorm⟩ := mem_ofList? ht hd
  obtain ⟨c, hc, hsub⟩ := exists_of_mapM_mem hshifted hc'
  have hwf := hs.each c hc
  obtain ⟨hwf', hrel, -⟩ := Constraint.substitute_spec hwf he (fun y hy _ => hy) hsub
  have hcoeff := Constraint.coeff_substitute hwf he (fun y hy _ => hy) hsub
  have hdw : d.IsNormal V := (Constraint.normalize_eq_proper hwf' hnorm).1
  have hxd : x ∈ d.form.vars := hdw.form.canonical.mem_vars_iff.mpr hx
  have hvars (hr : ∀ m, c'.relation ≠ .mod m) : d.relation = c.relation ∧ x ∈ c.form.vars := by
    obtain ⟨hdr, hdv⟩ := Constraint.normalize_vars hnorm hwf' hr
    refine ⟨hdr.trans hrel, hwf.form.canonical.mem_vars_iff.mpr fun h0 => ?_⟩
    rw [hdv, hwf'.form.canonical.mem_vars_iff, hcoeff, h0, zero_mul] at hxd
    exact hxd rfl
  cases hr : c.relation with
  | eq => exact absurd (hvars (by simp [hrel, hr])).2 (pivot?_eq_none hpivot c hc hr)
  | ge => exact (hvars (by simp [hrel, hr])).1.trans hr
  | mod m =>
    refine absurd ?_ (Constraint.normalize_mod_vars hnorm (hrel.trans hr) hwf' hxd)
    rw [hcoeff, hp]
    by_cases hmem : x ∈ c.form.vars
    · exact (hdvd c hc m hr hmem).mul_left _
    · rw [Affine.coeff_eq_zero hmem, zero_mul]
      exact dvd_zero m

theorem eliminateResidue_describes (hs : s.WellFormed V) (hx : V x) (hpivot : s.pivot? x = none)
    (hdvd : s.HasPeriod x p) (h : s.eliminateResidue x p r = .ok ts) :
    Describes (Avoiding V x) (fun ρ => ∃ v, s.Holds (update ρ x (p * v + r))) ts := by
  simp only [eliminateResidue, bind_eq_ok] at h
  obtain ⟨e, he, shifted, hshifted, u, hu, h⟩ := h
  obtain ⟨hover, heval⟩ := Affine.addConstant_spec (Affine.Over.term hx p) he
  have hp : e.coeff x = p := by
    rw [Affine.coeff_eq_eval_sub hover.canonical, heval, heval, Affine.eval_term, Affine.eval_term,
      update_self]
    ring
  have hspec {c d : Constraint} (hc : c ∈ s) (hsub : c.substitute x e = .ok d) :=
    Constraint.substitute_spec (hs.each c hc) hover (fun y hy _ => hy) hsub
  have hwf : ∀ d ∈ shifted, d.WellFormed V := by
    intro d hd
    obtain ⟨c, hc, hsub⟩ := exists_of_mapM_mem hshifted hd
    exact (hspec hc hsub).1
  have hholds (ρ : String → Int) (v : Int) : (∀ d ∈ shifted, d.Holds (update ρ x v)) ↔
      s.Holds (update ρ x (p * v + r)) := by
    have hat {c d : Constraint} (hc : c ∈ s) (hsub : c.substitute x e = .ok d) :
        d.Holds (update ρ x v) ↔ c.Holds (update ρ x (p * v + r)) := by
      rw [(hspec hc hsub).2.2, update_idem, heval, Affine.eval_term, update_self]
    constructor
    · intro hd c hc
      obtain ⟨d, hd', hsub⟩ := exists_mapM_mem hshifted hc
      exact (hat hc hsub).mp (hd d hd')
    · intro hc d hd
      obtain ⟨c, hc', hsub⟩ := exists_of_mapM_mem hshifted hd
      exact (hat hc' hsub).mpr (hc c hc')
  have hdesc := ofList?_describes hwf hu
  cases u with
  | none =>
    cases h
    exact .nil fun ρ ⟨v, hv⟩ => hdesc.not_of_none ((hholds ρ v).mpr hv)
  | some t =>
    obtain ⟨htwf, htiff⟩ := hdesc.of_some
    have hge := boundsOnly_of_substitute hs hpivot hdvd hover hp hshifted hu
    refine (eliminateBounds_describes htwf.each hge h).congr fun ρ => ?_
    exact exists_congr fun v => (htiff _).trans (hholds ρ v)

end Residues

theorem Describes.collect {α : Type} {f : α → Except SetError (List System)}
    {R : α → (String → Int) → Prop} {items : List α}
    (hf : ∀ a ∈ items, ∀ ts, f a = .ok ts → Describes V (R a) ts)
    (h : items.foldlM (fun found a => do
        let found := found ++ (← f a)
        if maxSplits < found.length then .error (.splitLimit maxSplits) else .ok found) [] =
      Except.ok out) :
    Describes V (fun ρ => ∃ a ∈ items, R a ρ) out := by
  have hempty : Describes V (fun _ => False) [] := .nil fun _ => id
  refine (hempty.foldlM (R := R) (fun P found out a ha hfound hout => ?_) h).congr fun ρ => ?_
  · obtain ⟨more, hmore, hout⟩ := bind_eq_ok.mp hout
    simp only at hout
    split_ifs at hout
    cases hout
    exact hfound.append (hf a ha more hmore)
  · rw [false_or]

theorem exists_residue {p : Int} (hp : 0 < p) {Q : Int → Prop} :
    (∃ r ∈ List.range p.toNat, ∃ v, Q (p * v + r)) ↔ ∃ w, Q w := by
  constructor
  · rintro ⟨r, -, v, h⟩
    exact ⟨_, h⟩
  · rintro ⟨w, h⟩
    have hnonneg := Int.emod_nonneg w hp.ne'
    have hlt := Int.emod_lt_of_pos w hp
    refine ⟨(w % p).toNat, List.mem_range.mpr (by omega), w / p, ?_⟩
    rwa [Int.toNat_of_nonneg hnonneg, Int.mul_ediv_add_emod]

theorem eliminate_describes (hs : s.WellFormed V) (h : s.eliminate x = .ok ts) :
    Describes (Avoiding V x) (fun ρ => ∃ v, s.Holds (update ρ x v)) ts := by
  unfold eliminate at h
  split_ifs at h with hmention
  · cases h
    have hfree : ∀ c ∈ s, x ∉ c.form.vars := by
      intro c hc hx
      rw [mentions_iff.mpr ⟨c, hc, hx⟩] at hmention
      cases hmention
    refine .single (hs.avoid hfree) fun ρ => ?_
    simp only [(hs.avoid hfree).holds_update_iff, exists_const]
  · have hx : V x := by
      obtain ⟨c, hc, hx⟩ := mentions_iff.mp (by simpa using hmention)
      exact (hs.normal c hc).form.within x hx
    split at h
    · next e others hpivot =>
      obtain ⟨o, ho, h⟩ := bind_eq_ok.mp h
      cases h
      exact eliminatePivot_describes hs.each hpivot ho
    · next hpivot =>
      obtain ⟨p, hp, h⟩ := bind_eq_ok.mp h
      obtain ⟨hpos, hdvd⟩ := period_spec hs hp
      split_ifs at h with hone
      · subst hone
        exact eliminateBounds_describes hs.each (boundsOnly_of_period_one hs hpivot hdvd) h
      · have hall := Describes.collect
          (fun r _ ts hts => eliminateResidue_describes hs hx hpivot hdvd hts) h
        exact hall.congr fun ρ => exists_residue hpos (Q := fun w => s.Holds (update ρ x w))

end LoopAudit.System
