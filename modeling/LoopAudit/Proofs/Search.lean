import LoopAudit.Proofs.Conjunction
import LoopAudit.Proofs.Enumeration
import LoopAudit.Proofs.Faults

/-! The sample search. Every interval it enumerates contains the values that solutions have there, a
search that leaves no value untried is complete, and the mark of untried values survives from every
depth, so that neither a point nor its absence is ever wrong. -/

namespace LoopAudit.Sample

open Function Fallible LoopAudit.System

variable {V : String → Prop} {s t : System} {c : Constraint} {x : String} {i j : Interval}
  {ρ : String → Int} {v : Int}

section Intervals

theorem shadowOf_spec {later : List String} {o : Option System} (hs : s.WellFormed V)
    (h : shadowOf s later = .ok o) :
    (∀ t, o = some t → t.WellFormed fun y => V y ∧ y ∉ later) ∧
      ∀ ρ, s.Holds ρ → ∃ t, o = some t ∧ t.Holds ρ := by
  induction later generalizing s V with
  | nil =>
    cases h
    refine ⟨?_, fun ρ hρ => ⟨s, rfl, hρ⟩⟩
    rintro t ⟨⟩
    exact hs.mono fun y hy => ⟨hy, List.not_mem_nil⟩
  | cons x later ih =>
    have hnames (y : String) (hy : Avoiding V x y ∧ y ∉ later) : V y ∧ y ∉ x :: later :=
      ⟨hy.1.1, by simp [hy.1.2, hy.2]⟩
    unfold shadowOf at h
    split_ifs at h with hmention
    · obtain ⟨o', ho', h⟩ := bind_eq_ok.mp h
      obtain ⟨hwf, hholds⟩ := shadow_spec hs.each ho'
      split at h
      · cases h
        exact ⟨nofun, fun ρ hρ => (hholds ρ hρ).imp fun t ht => by simp at ht⟩
      · next t =>
        obtain ⟨hwf', hholds'⟩ := ih (hwf t rfl) h
        refine ⟨fun u hu => (hwf' u hu).mono hnames, fun ρ hρ => hholds' ρ ?_⟩
        obtain ⟨_, ⟨⟩, ht⟩ := hholds ρ hρ
        exact ht
    · have hfree := hs.avoid fun c hc hx => hmention (mentions_iff.mpr ⟨c, hc, hx⟩)
      obtain ⟨hwf, hholds⟩ := ih hfree h
      exact ⟨fun u hu => (hwf u hu).mono hnames, hholds⟩

theorem eval_of_over_singleton {e : Affine} (he : e.Over (· = x)) :
    e.eval ρ = e.coeff x * ρ x + e.constant := by
  have hzero : e.eval (update ρ x 0) = e.eval fun _ => 0 :=
    he.eval_congr fun y hy => by rw [hy, update_self]
  rw [← Affine.eval_zero, ← hzero, ← Affine.eval_update_eq he.canonical, update_eq_self]

def Narrows (P : (String → Int) → Prop) (x : String) (i : Interval) (o : Option Interval) : Prop :=
  ∀ ρ, P ρ → i.Mem (ρ x) → ∃ j, o = some j ∧ j.Mem (ρ x)

namespace Narrows

variable {P : (String → Int) → Prop}

theorem toSome (h : ∀ ρ, P ρ → i.Mem (ρ x) → j.Mem (ρ x)) : Narrows P x i (some j) :=
  fun ρ hρ hi => ⟨j, rfl, h ρ hρ hi⟩

theorem refl : Narrows P x i (some i) := toSome fun _ _ => id

theorem toNone (h : ∀ ρ, P ρ → ¬ i.Mem (ρ x)) : Narrows P x i none :=
  fun ρ hρ hi => absurd hi (h ρ hρ)

theorem not_mem_of_none (h : Narrows P x i none) (hρ : P ρ) : ¬ i.Mem (ρ x) := by
  intro hi
  obtain ⟨_, ⟨⟩, -⟩ := h ρ hρ hi

theorem mem_of_some (h : Narrows P x i (some j)) (hρ : P ρ) (hi : i.Mem (ρ x)) : j.Mem (ρ x) := by
  obtain ⟨_, ⟨⟩, hj⟩ := h ρ hρ hi
  exact hj

end Narrows

theorem narrow_eq_ok {o : Option Interval} (h : narrow x i c = .ok o) :
    (c.form.coeff x = 0 ∨ ∃ m, c.relation = .mod m) ∧ o = some i ∨
      c.form.coeff x ≠ 0 ∧ c.relation = .eq ∧
        (c.form.constant % c.form.coeff x ≠ 0 ∧ o = none ∨
          c.form.constant % c.form.coeff x = 0 ∧
            ∃ v, -c.form.constant / c.form.coeff x = v ∧ Word.Fits v ∧
              o = some ((i.raise v).lower v)) ∨
      c.relation = .ge ∧
        ((0 < c.form.coeff x ∧ ∃ v, -(c.form.constant / c.form.coeff x) = v ∧ Word.Fits v ∧
            o = some (i.raise v)) ∨
          c.form.coeff x < 0 ∧ ∃ v, c.form.constant / -c.form.coeff x = v ∧ Word.Fits v ∧
            o = some (i.lower v)) := by
  obtain ⟨r, e⟩ := c
  unfold narrow at h
  simp only at h ⊢
  by_cases ha : e.coeff x = 0
  · rw [if_pos ha] at h
    exact .inl ⟨.inl ha, (Except.ok.inj h).symm⟩
  rw [if_neg ha] at h
  cases r with
  | eq =>
    simp only at h
    split_ifs at h with hk
    · exact .inr (.inl ⟨ha, rfl, .inl ⟨hk, (Except.ok.inj h).symm⟩⟩)
    · simp only [bind_eq_ok, trapping_eq_ok_iff] at h
      obtain ⟨_, ⟨-, rfl⟩, v, ⟨hfits, rfl⟩, h⟩ := h
      exact .inr (.inl ⟨ha, rfl, .inr ⟨not_not.mp hk, _, rfl, hfits, (Except.ok.inj h).symm⟩⟩)
  | ge =>
    simp only at h
    split_ifs at h with hpos
    · simp only [ceilDiv, bind_eq_ok, trapping_eq_ok_iff] at h
      obtain ⟨_, ⟨-, rfl⟩, v, ⟨_, ⟨-, rfl⟩, hfits, rfl⟩, h⟩ := h
      rw [neg_neg] at hfits h
      exact .inr (.inr ⟨rfl, .inl ⟨hpos, _, rfl, hfits, (Except.ok.inj h).symm⟩⟩)
    · simp only [bind_eq_ok, trapping_eq_ok_iff] at h
      obtain ⟨_, ⟨-, rfl⟩, v, ⟨hfits, rfl⟩, h⟩ := h
      have hneg : e.coeff x < 0 := lt_of_le_of_ne (not_lt.mp hpos) ha
      exact .inr (.inr ⟨rfl, .inr ⟨hneg, _, rfl, hfits, (Except.ok.inj h).symm⟩⟩)
  | mod m => exact .inl ⟨.inr ⟨m, rfl⟩, (Except.ok.inj h).symm⟩

theorem narrow_spec {o : Option Interval} (hc : c.WellFormed (· = x))
    (h : narrow x i c = .ok o) : Narrows c.Holds x i o := by
  have heval (ρ : String → Int) := eval_of_over_singleton (ρ := ρ) hc.form
  obtain ⟨r, e⟩ := c
  obtain ⟨-, rfl⟩ | ⟨ha, rfl, hcase⟩ | ⟨rfl, hcase⟩ := narrow_eq_ok h
  · exact .refl
  · have hroot (ρ : String → Int) (hρ : e.eval ρ = 0) : -e.constant = e.coeff x * ρ x := by
      linarith [heval ρ]
    obtain ⟨hk, rfl⟩ | ⟨-, v, rfl, -, rfl⟩ := hcase
    · refine .toNone fun ρ hρ _ => hk (Int.emod_eq_zero_of_dvd ?_)
      exact (Int.dvd_neg).mp ⟨ρ x, hroot ρ hρ⟩
    · refine .toSome fun ρ hρ hmem => ?_
      have hval : -e.constant / e.coeff x = ρ x := by
        rw [hroot ρ hρ, Int.mul_ediv_cancel_left _ ha]
      exact Interval.mem_lower (Interval.mem_raise hmem hval.le) hval.ge
  · have hbound (ρ : String → Int) (hρ : 0 ≤ e.eval ρ) : 0 ≤ e.coeff x * ρ x + e.constant :=
      heval ρ ▸ hρ
    obtain ⟨hpos, v, rfl, -, rfl⟩ | ⟨hneg, v, rfl, -, rfl⟩ := hcase
    · refine .toSome fun ρ hρ hmem => ?_
      exact Interval.mem_raise hmem ((lower_iff hpos).mp (hbound ρ hρ))
    · refine .toSome fun ρ hρ hmem => ?_
      exact Interval.mem_lower hmem ((upper_iff hneg).mp (hbound ρ hρ))

theorem narrowBy_spec {o : Option Interval} (hs : ∀ c ∈ s, c.WellFormed (· = x))
    (h : narrowBy x i s = .ok o) : Narrows s.Holds x i o := by
  induction s generalizing i with
  | nil =>
    cases h
    exact .refl
  | cons c s ih =>
    obtain ⟨hc, hs⟩ := List.forall_mem_cons.mp hs
    obtain ⟨o', ho', h⟩ := bind_eq_ok.mp h
    have hfirst := narrow_spec hc ho'
    split at h
    · cases h
      exact .toNone fun ρ hρ => hfirst.not_mem_of_none (hρ c (List.mem_cons_self ..))
    · next j =>
      intro ρ hρ hiρ
      obtain ⟨hcρ, hsρ⟩ := List.forall_mem_cons.mp hρ
      exact ih hs h ρ hsρ (hfirst.mem_of_some hcρ hiρ)

theorem intervalOf_spec {later : List String} {o : Option Interval}
    (hs : s.WellFormed (· ∈ x :: later)) (h : intervalOf s x later = .ok o) :
    Narrows s.Holds x .all o := by
  obtain ⟨o', ho', h⟩ := bind_eq_ok.mp h
  obtain ⟨hwf, hholds⟩ := shadowOf_spec hs ho'
  split at h
  · cases h
    refine .toNone fun ρ hρ => ?_
    obtain ⟨_, ⟨⟩, -⟩ := hholds ρ hρ
  · next t =>
    have hshadow (ρ : String → Int) (hρ : s.Holds ρ) : t.Holds ρ := by
      obtain ⟨_, ⟨⟩, ht⟩ := hholds ρ hρ
      exact ht
    have ht : ∀ c ∈ t, c.WellFormed (· = x) := fun c hc =>
      ((hwf t rfl).each c hc).mono fun y hy =>
        (List.mem_cons.mp hy.1).resolve_right hy.2
    obtain ⟨o'', ho'', h⟩ := bind_eq_ok.mp h
    have hnarrow := narrowBy_spec ht ho''
    split at h
    · cases h
      exact .toNone fun ρ hρ => hnarrow.not_mem_of_none (hshadow ρ hρ)
    · next j =>
      cases h
      have hj (ρ : String → Int) (hρ : s.Holds ρ) : j.Mem (ρ x) :=
        hnarrow.mem_of_some (hshadow ρ hρ) Interval.mem_all
      split_ifs with hempty
      · exact .toNone fun ρ hρ _ => by simp [Interval.not_isEmpty (hj ρ hρ)] at hempty
      · exact .toSome fun ρ hρ _ => hj ρ hρ

theorem narrow_inWord (hi : i.InWord) (h : narrow x i c = .ok (some j)) : j.InWord := by
  obtain ⟨-, hj⟩ | ⟨-, -, ⟨-, hj⟩ | ⟨-, v, -, hfits, hj⟩⟩ |
    ⟨-, ⟨-, v, -, hfits, hj⟩ | ⟨-, v, -, hfits, hj⟩⟩ := narrow_eq_ok h <;> cases hj
  · exact hi
  · exact (hi.raise hfits).lower hfits
  · exact hi.raise hfits
  · exact hi.lower hfits

theorem narrowBy_inWord (hi : i.InWord) (h : narrowBy x i s = .ok (some j)) : j.InWord := by
  induction s generalizing i with
  | nil =>
    cases h
    exact hi
  | cons c s ih =>
    obtain ⟨o, ho, h⟩ := bind_eq_ok.mp h
    cases o with
    | none => cases h
    | some k => exact ih (narrow_inWord hi ho) h

theorem intervalOf_inWord {later : List String} (h : intervalOf s x later = .ok (some i)) :
    i.InWord ∧ i.isEmpty = false := by
  obtain ⟨o, -, h⟩ := bind_eq_ok.mp h
  cases o with
  | none => cases h
  | some t =>
    obtain ⟨o, ho, h⟩ := bind_eq_ok.mp h
    cases o with
    | none => cases h
    | some j =>
      simp only [Except.ok.injEq] at h
      split_ifs at h with hempty
      cases h
      exact ⟨narrowBy_inWord .all ho, by simpa using hempty⟩

end Intervals

section Solutions

theorem assign_spec {later : List String} {o : Option System} (hs : s.WellFormed (· ∈ x :: later))
    (h : s.assign x v = .ok o) :
    (∀ t, o = some t → t.WellFormed (· ∈ later)) ∧
      ∀ ρ, (∃ t, o = some t ∧ t.Holds ρ) ↔ s.Holds (update ρ x v) := by
  have hspec {c d : Constraint} (hc : c ∈ s) (hd : c.substituteValue x v = .ok d) :=
    Constraint.substituteValue_spec (hs.each c hc) hd
  refine ⟨fun t ht => ?_, fun ρ => ?_⟩
  · have hwf := insertEach_wellFormed .nil (fun c hc d hd => (hspec hc hd).1) h t ht
    exact hwf.mono fun y hy => (List.mem_cons.mp hy.1).resolve_left hy.2
  · refine (insertEach_holds_iff .nil (fun c hc d hd => (hspec hc hd).1) h
      (P := fun c => c.Holds (update ρ x v)) fun c hc d hd => (hspec hc hd).2 ρ).trans ?_
    exact and_iff_right nofun

variable {step : Int → Progress → Except SetError (Option (List Int) × Progress)}
  {vs values : List Int} {p p' : Progress}

def firstSuccess (step : Int → Progress → Except SetError (Option (List Int) × Progress)) :
    List Int → Progress → Except SetError (Option (List Int) × Progress)
  | [], p => .ok (none, p)
  | v :: vs, p => do
    match ← step v p with
    | (some later, p) => .ok (some (v :: later), p)
    | (none, p) => firstSuccess step vs p

theorem firstSuccess_cons {o : Option (List Int)} :
    firstSuccess step (v :: vs) p = .ok (o, p') ↔
      (∃ rest, o = some (v :: rest) ∧ step v p = .ok (some rest, p')) ∨
        ∃ q, step v p = .ok (none, q) ∧ firstSuccess step vs q = .ok (o, p') := by
  rw [firstSuccess, bind_eq_ok, Prod.exists]
  constructor
  · rintro ⟨_ | rest, q, hq, h⟩
    · exact .inr ⟨q, hq, h⟩
    · cases h
      exact .inl ⟨rest, rfl, hq⟩
  · rintro (⟨rest, rfl, h⟩ | ⟨q, hq, h⟩)
    · exact ⟨some rest, p', h, rfl⟩
    · exact ⟨none, q, hq, h⟩

theorem firstSuccess_of_yields {c last : Candidates} {n : Nat} {o : Option (List Int)}
    (hyields : c.Yields vs last) (hlast : ∀ v d, last.next ≠ .ok (some v, d)) (hn : vs.length ≤ n)
    (h : tryCandidates step n c p = .ok (o, p')) : firstSuccess step vs p = .ok (o, p') := by
  induction hyields generalizing n p with
  | nil =>
    cases n with
    | zero => exact h
    | succ n =>
      obtain ⟨⟨_ | v, d⟩, hd, h⟩ := bind_eq_ok.mp h
      · exact h
      · exact absurd hd (hlast v d)
  | cons hnext _ ih =>
    obtain ⟨n, rfl⟩ := Nat.exists_eq_add_of_le' (Nat.one_le_of_lt hn)
    obtain ⟨r, hr, h⟩ := bind_eq_ok.mp h
    obtain rfl := Except.ok.inj (hnext.symm.trans hr)
    obtain ⟨⟨_ | rest, q⟩, hq, h⟩ := bind_eq_ok.mp h
    · exact firstSuccess_cons.mpr (.inr ⟨q, hq, ih hlast (Nat.le_of_succ_le_succ hn) h⟩)
    · cases h
      exact firstSuccess_cons.mpr (.inl ⟨rest, rfl, hq⟩)

theorem firstSuccess_eq_some (h : firstSuccess step vs p = .ok (some values, p')) :
    ∃ v rest q q', values = v :: rest ∧ step v q = .ok (some rest, q') := by
  induction vs generalizing p with
  | nil => cases h
  | cons v vs ih =>
    rcases firstSuccess_cons.mp h with ⟨rest, hvalues, hstep⟩ | ⟨q, -, h⟩
    · exact ⟨v, rest, p, p', Option.some.inj hvalues, hstep⟩
    · exact ih h

theorem firstSuccess_eq_none {N : Int → Prop}
    (hstep : ∀ v p p', step v p = .ok (none, p') → p'.truncated = false →
      p.truncated = false ∧ N v)
    (h : firstSuccess step vs p = .ok (none, p')) (hp' : p'.truncated = false) :
    p.truncated = false ∧ ∀ v ∈ vs, N v := by
  induction vs generalizing p with
  | nil =>
    cases h
    exact ⟨hp', fun v hv => absurd hv List.not_mem_nil⟩
  | cons v vs ih =>
    rcases firstSuccess_cons.mp h with ⟨rest, hnone, -⟩ | ⟨q, hq, h⟩
    · cases hnone
    · obtain ⟨hq', hvs⟩ := ih h
      obtain ⟨hp, hv⟩ := hstep v p q hq hq'
      exact ⟨hp, List.forall_mem_cons.mpr ⟨hv, hvs⟩⟩

theorem tick_truncated (h : p.tick = .ok p') : p'.truncated = p.truncated := by
  unfold Progress.tick at h
  split_ifs at h
  cases h
  rfl

theorem eq_nil_of_over_nil (hs : s.WellFormed (· ∈ ([] : List String))) : s = [] := by
  refine List.eq_nil_iff_forall_not_mem.mpr fun c hc => (hs.normal c hc).terms_ne_nil ?_
  refine List.eq_nil_iff_forall_not_mem.mpr fun t ht => ?_
  exact List.not_mem_nil ((hs.normal c hc).form.within t.1 (List.mem_map_of_mem ht))

variable {names later : List String} {o : Option (List Int)}

theorem attempt_cases (hs : s.WellFormed (· ∈ x :: later))
    (h : attempt (solve later) s x v p = .ok (o, p')) :
    (o = none ∧ p' = p ∧ ∀ ρ, ¬ s.Holds (update ρ x v)) ∨
      ∃ t : System, t.WellFormed (· ∈ later) ∧ (∀ ρ, t.Holds ρ ↔ s.Holds (update ρ x v)) ∧
        solve later t p = .ok (o, p') := by
  obtain ⟨assigned, hassign, h⟩ := bind_eq_ok.mp h
  obtain ⟨hwf, hiff⟩ := assign_spec hs hassign
  cases assigned with
  | none =>
    cases h
    refine .inl ⟨rfl, rfl, fun ρ hρ => ?_⟩
    obtain ⟨_, ⟨⟩, -⟩ := (hiff ρ).mpr hρ
  | some t => exact .inr ⟨t, hwf t rfl, fun ρ => by simpa using hiff ρ, h⟩

theorem attempt_eq_none (hs : s.WellFormed (· ∈ x :: later))
    (hcomplete : ∀ (t : System) p p', t.WellFormed (· ∈ later) → solve later t p = .ok (none, p') →
      p'.truncated = false → p.truncated = false ∧ ∀ ρ, ¬ t.Holds ρ)
    (h : attempt (solve later) s x v p = .ok (none, p')) (hp' : p'.truncated = false) :
    p.truncated = false ∧ ∀ ρ, ¬ s.Holds (update ρ x v) := by
  obtain ⟨-, rfl, hnot⟩ | ⟨t, hwf, hiff, hsolve⟩ := attempt_cases hs h
  · exact ⟨hp', hnot⟩
  · obtain ⟨hp, hnot⟩ := hcomplete t p p' hwf hsolve hp'
    exact ⟨hp, fun ρ hρ => hnot ρ ((hiff ρ).mpr hρ)⟩

/-- The search at one name: the values of its interval are tried, nearest to zero first, and values
left untried are marked if none of the others succeeds. -/
theorem solve_cons (h : solve (x :: later) s p = .ok (o, p')) :
    ∃ q, p.tick = .ok q ∧
      ((intervalOf s x later = .ok none ∧ o = none ∧ p' = q) ∨
        ∃ i q', intervalOf s x later = .ok (some i) ∧
          firstSuccess (attempt (solve later) s x) (candidates i) q = .ok (o, q') ∧
          p'.truncated = (q'.truncated || o.isNone && !isExhaustive i)) := by
  obtain ⟨q, hq, h⟩ := bind_eq_ok.mp h
  obtain ⟨interval, hinterval, h⟩ := bind_eq_ok.mp h
  refine ⟨q, hq, ?_⟩
  cases interval with
  | none =>
    cases h
    exact .inl ⟨hinterval, rfl, rfl⟩
  | some i =>
    obtain ⟨⟨found, q'⟩, htried, h⟩ := bind_eq_ok.mp h
    obtain ⟨hi, hempty⟩ := intervalOf_inWord hinterval
    obtain ⟨last, hyields, hlast⟩ := Candidates.yields_candidates hi hempty
    have hstops (v : Int) (d : Candidates) : last.next ≠ .ok (some v, d) := by
      intro hnext
      rcases hlast with ⟨-, _, hend, -⟩ | ⟨-, hend⟩ <;> rw [hnext] at hend <;> cases hend
    have hfound := firstSuccess_of_yields hyields hstops
      (candidates_firstWords hi hempty).length_le htried
    refine .inr ⟨i, q', hinterval, ?_⟩
    cases found with
    | none =>
      cases h
      exact ⟨hfound, by simp⟩
    | some values =>
      cases h
      exact ⟨hfound, by simp⟩

theorem solve_sound (hs : s.WellFormed (· ∈ names))
    (h : solve names s p = .ok (some values, p')) :
    values.length = names.length ∧ ∀ ρ, names.map ρ = values → s.Holds ρ := by
  induction names generalizing s p p' values with
  | nil =>
    obtain ⟨q, -, h⟩ := bind_eq_ok.mp h
    obtain rfl := eq_nil_of_over_nil hs
    cases h
    exact ⟨rfl, fun _ _ c hc => absurd hc List.not_mem_nil⟩
  | cons x later ih =>
    obtain ⟨q, -, ⟨-, hnone, -⟩ | ⟨i, q', -, hfound, -⟩⟩ := solve_cons h
    · cases hnone
    obtain ⟨v, rest, q₁, q₂, rfl, hstep⟩ := firstSuccess_eq_some hfound
    obtain ⟨hnone, -⟩ | ⟨t, hwf, hiff, hsolve⟩ := attempt_cases hs hstep
    · cases hnone
    obtain ⟨hlen, hholds⟩ := ih hwf hsolve
    refine ⟨by rw [List.length_cons, List.length_cons, hlen], fun ρ hρ => ?_⟩
    rw [List.map_cons, List.cons.injEq] at hρ
    have hsρ := (hiff ρ).mp (hholds ρ hρ.2)
    rwa [← hρ.1, update_eq_self] at hsρ

theorem solve_complete (hs : s.WellFormed (· ∈ names))
    (h : solve names s p = .ok (none, p')) (hp' : p'.truncated = false) :
    p.truncated = false ∧ ∀ ρ, ¬ s.Holds ρ := by
  induction names generalizing s p p' with
  | nil =>
    obtain ⟨q, -, h⟩ := bind_eq_ok.mp h
    obtain rfl := eq_nil_of_over_nil hs
    cases h
  | cons x later ih =>
    obtain ⟨q, hq, ⟨hinterval, -, rfl⟩ | ⟨i, q', hinterval, hfound, hmark⟩⟩ := solve_cons h <;>
      rw [← tick_truncated hq]
    · exact ⟨hp', fun ρ hρ => (intervalOf_spec hs hinterval).not_mem_of_none hρ Interval.mem_all⟩
    rw [hmark, Option.isNone_none, Bool.true_and, Bool.or_eq_false_iff, Bool.not_eq_false'] at hp'
    obtain ⟨hq', hvalues⟩ := firstSuccess_eq_none
      (fun v p₁ p₂ hstep hp₂ => attempt_eq_none hs (fun _ _ _ => ih) hstep hp₂) hfound hp'.1
    refine ⟨hq', fun ρ hρ => ?_⟩
    have hi := (intervalOf_spec hs hinterval).mem_of_some hρ Interval.mem_all
    refine hvalues (ρ x) (mem_candidates (intervalOf_inWord hinterval).1 hp'.2 hi) ρ ?_
    rwa [update_eq_self]

end Solutions

end LoopAudit.Sample

namespace LoopAudit.Point

def value (p : Point) (x : String) : Int := (p.get? x).getD 0

theorem map_value_zip {names : List String} {values : List Int} (hnames : names.Nodup)
    (hlen : values.length = names.length) :
    names.map (value ⟨names.zip values⟩) = values := by
  induction names generalizing values with
  | nil => exact (List.length_eq_zero_iff.mp hlen).symm
  | cons x names ih =>
    obtain ⟨hx, hnames⟩ := List.nodup_cons.mp hnames
    cases values with
    | nil => cases hlen
    | cons v values =>
      rw [List.map_cons]
      refine congrArg₂ List.cons (by simp [value, get?]) ?_
      refine Eq.trans (List.map_congr_left fun y hy => ?_) (ih hnames (Nat.succ.inj hlen))
      have hne : (y == x) = false := beq_eq_false_iff_ne.mpr fun h => hx (h ▸ hy)
      simp [value, get?, List.lookup_cons, hne]

end LoopAudit.Point

namespace LoopAudit.Conjunction

open Fallible Sample

variable {b : Conjunction} {p : Point}

theorem sample_eq_some (hb : b.WellFormed) (h : b.sample = .ok (some p)) :
    p.coords.map Prod.fst = b.space.names ∧ b.Holds p.value := by
  unfold sample at h
  split_ifs at h with hcontra
  · cases h
  · obtain ⟨⟨o, q⟩, hsolve, h⟩ := bind_eq_ok.mp h
    cases o with
    | none =>
      simp only at h
      split_ifs at h
      cases h
    | some values =>
      cases h
      obtain ⟨hlen, hholds⟩ := solve_sound hb.system hsolve
      refine ⟨List.map_fst_zip hlen.ge, by simpa using hcontra, hholds _ ?_⟩
      exact Point.map_value_zip hb.distinct hlen

theorem sample_eq_none (hb : b.WellFormed) (h : b.sample = .ok none) (ρ : String → Int) :
    ¬ b.Holds ρ := by
  rintro ⟨hfeasible, hρ⟩
  rw [sample, if_neg (by simp [hfeasible])] at h
  obtain ⟨⟨o, q⟩, hsolve, h⟩ := bind_eq_ok.mp h
  cases o with
  | some values => cases h
  | none =>
    simp only at h
    split_ifs at h with htruncated
    exact (solve_complete hb.system hsolve (by simpa using htruncated)).2 ρ hρ

theorem isEmpty_spec (hb : b.WellFormed) {v : Bool} (h : b.isEmpty = .ok v) :
    v = true ↔ ∀ ρ, ¬ b.Holds ρ := by
  obtain ⟨o, ho, h⟩ := bind_eq_ok.mp h
  cases h
  cases o with
  | none => exact iff_of_true rfl (sample_eq_none hb ho)
  | some p => exact iff_of_false Bool.false_ne_true fun hnot => hnot _ (sample_eq_some hb ho).2

theorem sample_exhausts : Exhausts b.sample := by
  unfold sample
  split
  · exact .ok
  · exact find_exhausts

end LoopAudit.Conjunction
