import LoopAudit.Proofs.Differences
import LoopAudit.Proofs.Representation

/-! The sample search on bounds and differences. The interval of a name holds no value that some
solution does not have there, so that the first candidate of every name leads on to the next one,
and without a solution the first interval is already empty. -/

namespace LoopAudit.Sample

open Function Fallible LoopAudit.System

variable {V : String → Prop} {s t : System} {c : Constraint} {x : String} {i j : Interval}
  {ρ : String → Int} {v : Int} {names later : List String}

namespace Interval

theorem mem_raise_iff {l : Int} : (i.raise l).Mem v ↔ i.Mem v ∧ l ≤ v := by
  refine ⟨fun h => ?_, fun h => mem_raise h.1 h.2⟩
  have hlo := h.1 _ rfl
  cases hi : i.lo with
  | none =>
    rw [hi] at hlo
    exact ⟨⟨fun m hm => by simp [hi] at hm, h.2⟩, hlo⟩
  | some m =>
    rw [hi] at hlo
    obtain ⟨hl, hm⟩ := max_le_iff.mp hlo
    refine ⟨⟨fun k hk => ?_, h.2⟩, hl⟩
    rw [hi, Option.mem_some_iff] at hk
    exact hk ▸ hm

theorem mem_lower_iff {u : Int} : (i.lower u).Mem v ↔ i.Mem v ∧ v ≤ u := by
  refine ⟨fun h => ?_, fun h => mem_lower h.1 h.2⟩
  have hhi := h.2 _ rfl
  cases hi : i.hi with
  | none =>
    rw [hi] at hhi
    exact ⟨⟨h.1, fun m hm => by simp [hi] at hm⟩, hhi⟩
  | some m =>
    rw [hi] at hhi
    obtain ⟨hu, hm⟩ := le_min_iff.mp hhi
    refine ⟨⟨h.1, fun k hk => ?_⟩, hu⟩
    rw [hi, Option.mem_some_iff] at hk
    exact hk ▸ hm

end Interval

theorem head_candidates (hi : i.InWord) (hempty : i.isEmpty = false) :
    (candidates i).head? = some i.nearest := by
  have htest : (i.contains i.nearest && decide (Word.Fits i.nearest)) = true := by
    rw [Bool.and_eq_true, Interval.contains_iff, decide_eq_true_eq]
    exact ⟨Interval.mem_nearest hempty, hi.nearest⟩
  rw [candidates, nearby, offsets, List.map_cons, add_zero, List.filter_cons, if_pos htest]
  rfl

section Exact

theorem holds_of_narrow (hc : c.IsNormal (· = x)) (hr : c.relation = .eq ∨ c.relation = .ge)
    (h : narrow x i c = .ok (some j)) (hj : j.Mem (ρ x)) : i.Mem (ρ x) ∧ c.Holds ρ := by
  have ha : c.form.coeff x ≠ 0 := by
    obtain ⟨t, ht⟩ := List.exists_mem_of_ne_nil _ hc.terms_ne_nil
    have hx : t.1 ∈ c.form.vars := List.mem_map_of_mem ht
    have hname : t.1 = x := hc.form.within t.1 hx
    exact hc.form.canonical.mem_vars_iff.mp (hname ▸ hx)
  have heval := eval_of_over_singleton (ρ := ρ) hc.form
  obtain ⟨r, e⟩ := c
  simp only at ha heval hr
  obtain ⟨hidle, -⟩ | ⟨-, rfl, ⟨-, hw⟩ | ⟨hk, w, rfl, -, hw⟩⟩ |
    ⟨rfl, ⟨hpos, w, rfl, -, hw⟩ | ⟨hneg, w, rfl, -, hw⟩⟩ := narrow_eq_ok h
  · obtain h0 | ⟨m, rfl⟩ := hidle
    · exact absurd h0 ha
    · simp at hr
  · cases hw
  · cases hw
    obtain ⟨hraise, hupper⟩ := Interval.mem_lower_iff.mp hj
    obtain ⟨hmem, hlower⟩ := Interval.mem_raise_iff.mp hraise
    refine ⟨hmem, ?_⟩
    have hdvd : e.coeff x ∣ -e.constant :=
      Int.dvd_neg.mpr (Int.dvd_of_emod_eq_zero hk)
    have hroot := Int.mul_ediv_cancel' hdvd
    rw [le_antisymm hlower hupper] at hroot
    change e.eval ρ = 0
    rw [heval, hroot, neg_add_cancel]
  · cases hw
    obtain ⟨hmem, hlower⟩ := Interval.mem_raise_iff.mp hj
    refine ⟨hmem, ?_⟩
    change 0 ≤ e.eval ρ
    rw [heval]
    exact (lower_iff hpos).mpr hlower
  · cases hw
    obtain ⟨hmem, hupper⟩ := Interval.mem_lower_iff.mp hj
    refine ⟨hmem, ?_⟩
    change 0 ≤ e.eval ρ
    rw [heval]
    exact (upper_iff hneg).mpr hupper

theorem holds_of_narrowBy (hs : ∀ c ∈ s, c.IsNormal (· = x)) (hgaps : GapsOnly s)
    (h : narrowBy x i s = .ok (some j)) (hj : j.Mem (ρ x)) : i.Mem (ρ x) ∧ s.Holds ρ := by
  induction s generalizing i with
  | nil =>
    cases h
    exact ⟨hj, fun c hc => absurd hc List.not_mem_nil⟩
  | cons c s ih =>
    obtain ⟨hc, hs⟩ := List.forall_mem_cons.mp hs
    obtain ⟨hgap, hgaps⟩ := List.forall_mem_cons.mp hgaps
    obtain ⟨o, ho, h⟩ := bind_eq_ok.mp h
    cases o with
    | none => cases h
    | some k =>
      obtain ⟨hk, hrest⟩ := ih hs hgaps h
      obtain ⟨hmem, hfirst⟩ := holds_of_narrow hc hgap.relation ho hk
      exact ⟨hmem, List.forall_mem_cons.mpr ⟨hfirst, hrest⟩⟩

theorem extends_of_shadowOf (hs : s.WellFormed V) (hgaps : GapsOnly s)
    (h : shadowOf s later = .ok (some t)) :
    GapsOnly t ∧ ∀ ρ, t.Holds ρ → ∃ σ, Conjunction.AgreeOff later σ ρ ∧ s.Holds σ := by
  induction later generalizing s V with
  | nil =>
    cases h
    exact ⟨hgaps, fun ρ hρ => ⟨ρ, fun _ _ => rfl, hρ⟩⟩
  | cons x later ih =>
    unfold shadowOf at h
    split_ifs at h with hmention
    · obtain ⟨o, ho, h⟩ := bind_eq_ok.mp h
      cases o with
      | none => cases h
      | some u =>
        obtain ⟨hwf, hiff⟩ := (hgaps.shadow_describes hs ho).of_some
        obtain ⟨ht, hextends⟩ := ih hwf (hgaps.shadow hs ho) h
        refine ⟨ht, fun ρ hρ => Conjunction.exists_agreeOff_cons.mp ?_⟩
        exact (hextends ρ hρ).imp fun σ hσ => ⟨hσ.1, (hiff σ).mp hσ.2⟩
    · obtain ⟨ht, hextends⟩ := ih hs hgaps h
      refine ⟨ht, fun ρ hρ => (hextends ρ hρ).imp fun σ hσ => ⟨fun y hy => hσ.1 y ?_, hσ.2⟩⟩
      exact fun hmem => hy (List.mem_cons_of_mem x hmem)

theorem exact_of_intervalOf (hs : s.WellFormed (· ∈ x :: later)) (hgaps : GapsOnly s)
    (hx : x ∉ later) (h : intervalOf s x later = .ok (some i)) :
    ∀ v, i.Mem v → ∃ σ, σ x = v ∧ s.Holds σ := by
  obtain ⟨o, ho, h⟩ := bind_eq_ok.mp h
  cases o with
  | none => cases h
  | some t =>
    have hwf := (shadowOf_spec hs ho).1 t rfl
    obtain ⟨ht, hextends⟩ := extends_of_shadowOf hs hgaps ho
    have hnormal : ∀ c ∈ t, c.IsNormal (· = x) := fun c hc =>
      (hwf.mono fun y hy => (List.mem_cons.mp hy.1).resolve_right hy.2).normal c hc
    obtain ⟨o, ho', h⟩ := bind_eq_ok.mp h
    cases o with
    | none => cases h
    | some j =>
      simp only [Except.ok.injEq] at h
      split_ifs at h
      cases h
      intro v hv
      obtain ⟨-, htv⟩ := holds_of_narrowBy (ρ := fun _ => v) hnormal ht ho' hv
      obtain ⟨σ, hσ, hsσ⟩ := hextends _ htv
      exact ⟨σ, hσ x hx, hsσ⟩

end Exact

/-- The course of a search that tries one value per name, the first one, and never turns back: it
ends at the last name, or where some arithmetic leaves the word range. -/
inductive Direct : List String → System → Except SetError (List Int) → Prop
  | done : Direct [] [] (.ok [])
  | interval {x : String} {later : List String} {s : System} {e : SetError} :
      intervalOf s x later = .error e → Direct (x :: later) s (.error e)
  | assign {x : String} {later : List String} {s : System} {i : Interval} {v : Int}
      {e : SetError} :
      intervalOf s x later = .ok (some i) → (candidates i).head? = some v →
      s.assign x v = .error e → Direct (x :: later) s (.error e)
  | next {x : String} {later : List String} {s t : System} {i : Interval} {v : Int}
      {r : Except SetError (List Int)} :
      intervalOf s x later = .ok (some i) → (candidates i).head? = some v →
      s.assign x v = .ok (some t) → Direct later t r → Direct (x :: later) s (r.map (v :: ·))

section Course

variable {p q q' : Progress} {r : Except SetError (List Int)}

theorem Direct.overruns (h : Direct names s r) : Overruns r := by
  induction h with
  | done => exact .ok
  | interval hi => exact .error (intervalOf_overruns _ hi)
  | assign _ _ ht =>
    exact .error (insertEach_overruns (fun _ => Constraint.substituteValue_overflows) _ ht)
  | next _ _ _ _ ih => exact ih.map

theorem tick_of_lt (h : p.steps < stepBudget) : p.tick = .ok ⟨p.steps + 1, p.truncated⟩ :=
  if_pos h

theorem solve_of_head (hq : p.tick = .ok q) (hi : intervalOf s x later = .ok (some i))
    (hv : (candidates i).head? = some v)
    (hstep : attempt (solve later) s x v q = r.map fun vs => (some vs, q')) :
    solve (x :: later) s p = r.map fun vs => (some (v :: vs), q') := by
  have hnext : ∃ c, (Candidates.ofInterval i).next = .ok (some v, c) := by
    obtain ⟨hword, hempty⟩ := intervalOf_inWord hi
    obtain ⟨last, hyields, -⟩ := Candidates.yields_candidates hword hempty
    obtain ⟨rest, hrest⟩ := List.head?_eq_some_iff.mp hv
    rw [hrest] at hyields
    cases hyields with
    | cons hnext _ => exact ⟨_, hnext⟩
  obtain ⟨c, hnext⟩ := hnext
  cases r with
  | ok vs =>
    have hfirst : tryCandidates (attempt (solve later) s x) maxCandidates (.ofInterval i) q =
        .ok (some (v :: vs), q') :=
      bind_eq_ok.mpr ⟨_, hnext, bind_eq_ok.mpr ⟨_, hstep, rfl⟩⟩
    exact bind_eq_ok.mpr ⟨q, hq, bind_eq_ok.mpr ⟨some i, hi, bind_eq_ok.mpr ⟨_, hfirst, rfl⟩⟩⟩
  | error e =>
    have hfirst : tryCandidates (attempt (solve later) s x) maxCandidates (.ofInterval i) q =
        .error e :=
      bind_eq_error.mpr (.inr ⟨_, hnext, bind_eq_error.mpr (.inl hstep)⟩)
    exact bind_eq_error.mpr (.inr ⟨q, hq, bind_eq_error.mpr
      (.inr ⟨some i, hi, bind_eq_error.mpr (.inl hfirst)⟩)⟩)

theorem Direct.solve_eq (h : Direct names s r) (hbudget : p.steps + names.length < stepBudget) :
    solve names s p = r.map fun vs => (some vs, ⟨p.steps + names.length + 1, p.truncated⟩) := by
  induction h generalizing p with
  | done => exact bind_eq_ok.mpr ⟨_, tick_of_lt hbudget, rfl⟩
  | interval hi =>
    have hq := tick_of_lt (p := p) (by omega)
    exact bind_eq_error.mpr (.inr ⟨_, hq, bind_eq_error.mpr (.inl hi)⟩)
  | @assign x later s i v e hi hv ht =>
    have hq := tick_of_lt (p := p) (by omega)
    have hstep : attempt (solve later) s x v ⟨p.steps + 1, p.truncated⟩ =
        (Except.error e : Except SetError (List Int)).map fun vs => (some vs, p) :=
      bind_eq_error.mpr (.inl ht)
    exact solve_of_head hq hi hv hstep
  | @next x later s t i v r hi hv ht hrest ih =>
    have hq := tick_of_lt (p := p) (by omega)
    rw [List.length_cons] at hbudget ⊢
    have hlater := ih (p := ⟨p.steps + 1, p.truncated⟩) (by simp only; omega)
    have hstep : attempt (solve later) s x v ⟨p.steps + 1, p.truncated⟩ =
        solve later t ⟨p.steps + 1, p.truncated⟩ := by
      rw [attempt, ht]
      rfl
    have hsteps : p.steps + (later.length + 1) + 1 = p.steps + 1 + later.length + 1 := by omega
    rw [solve_of_head hq hi hv (hstep.trans hlater), hsteps]
    cases r <;> rfl

theorem exists_direct (hs : s.WellFormed (· ∈ names)) (hgaps : GapsOnly s) (hnames : names.Nodup)
    (hρ : s.Holds ρ) : ∃ r, Direct names s r := by
  induction names generalizing s ρ with
  | nil =>
    obtain rfl := eq_nil_of_over_nil hs
    exact ⟨_, .done⟩
  | cons x later ih =>
    obtain ⟨hx, hlater⟩ := List.nodup_cons.mp hnames
    cases hi : intervalOf s x later with
    | error e => exact ⟨_, .interval hi⟩
    | ok o =>
      have hnarrows := intervalOf_spec hs hi
      cases o with
      | none => exact absurd Interval.mem_all (hnarrows.not_mem_of_none hρ)
      | some i =>
        obtain ⟨hword, hempty⟩ := intervalOf_inWord hi
        have hv := head_candidates hword hempty
        obtain ⟨σ, hσx, hσ⟩ := exact_of_intervalOf hs hgaps hx hi i.nearest
          (Interval.mem_nearest hempty)
        -- The first candidate is the value of some solution, so that fixing it keeps that one.
        have hfixed : s.Holds (update σ x i.nearest) := by rwa [← hσx, update_eq_self]
        cases ht : s.assign x i.nearest with
        | error e => exact ⟨_, .assign hi hv ht⟩
        | ok o =>
          obtain ⟨hwf, hiff⟩ := assign_spec hs ht
          obtain ⟨t, rfl, htσ⟩ := (hiff σ).mpr hfixed
          obtain ⟨r, hr⟩ := ih (hwf t rfl) (hgaps.assign hs ht) hlater htσ
          exact ⟨_, .next hi hv ht hr⟩

theorem not_interval_of_unsolvable (hs : s.WellFormed (· ∈ x :: later)) (hgaps : GapsOnly s)
    (hx : x ∉ later) (hnone : ∀ ρ, ¬ s.Holds ρ) : intervalOf s x later ≠ .ok (some i) := by
  intro h
  obtain ⟨σ, -, hσ⟩ := exact_of_intervalOf hs hgaps hx h i.nearest
    (Interval.mem_nearest (intervalOf_inWord h).2)
  exact hnone σ hσ

end Course

end LoopAudit.Sample

namespace LoopAudit.Conjunction

open Fallible Sample

variable {b : Conjunction}

theorem gapsOnly_of_isDifference (hdiff : ∀ c ∈ b.constraints, c.IsDifference) :
    b.constraints.GapsOnly :=
  fun c hc => (hdiff c hc).isGap

theorem sample_of_direct {r : Except SetError (List Int)} (hb : b.isContradictory = false)
    (hr : Direct b.space.names b.constraints r) (hlen : b.space.names.length < stepBudget) :
    b.sample = r.map fun vs => some ⟨b.space.names.zip vs⟩ := by
  have hsolve := hr.solve_eq (p := .start) (by simpa [Progress.start] using hlen)
  rw [sample, if_neg (by simp [hb])]
  cases r with
  | ok vs => exact bind_eq_ok.mpr ⟨_, hsolve, rfl⟩
  | error e => exact bind_eq_error.mpr (.inl hsolve)

theorem sample_of_unsolvable (hb : b.WellFormed) (hdiff : ∀ c ∈ b.constraints, c.IsDifference)
    (hnone : ∀ ρ, ¬ b.Holds ρ) :
    b.sample = .error .overflow ∨ b.sample = .error .trap ∨ b.sample = .ok none := by
  by_cases hcontra : b.isContradictory = true
  · exact .inr (.inr (by rw [sample, if_pos hcontra]))
  · have hfeasible : b.isContradictory = false := by simpa using hcontra
    have hempty (ρ : String → Int) (hρ : b.constraints.Holds ρ) : False := hnone ρ ⟨hfeasible, hρ⟩
    have hwf := hb.system
    have hdistinct := hb.distinct
    have hgaps := gapsOnly_of_isDifference hdiff
    rw [sample, if_neg hcontra, find]
    rw [Space.Distinct] at hdistinct
    generalize b.space.names = names at *
    generalize b.constraints = s at *
    cases names with
    | nil =>
      obtain rfl := eq_nil_of_over_nil hwf
      exact absurd (fun c hc => absurd hc List.not_mem_nil) (hempty fun _ => 0)
    | cons x later =>
      have hx := (List.nodup_cons.mp hdistinct).1
      have hq := tick_of_lt (p := .start) (by decide)
      cases hi : intervalOf s x later with
      | error e =>
        have hsolve : solve (x :: later) s .start = .error e :=
          bind_eq_error.mpr (.inr ⟨_, hq, bind_eq_error.mpr (.inl hi)⟩)
        rw [hsolve]
        obtain rfl | rfl := intervalOf_overruns e hi
        · exact .inl rfl
        · exact .inr (.inl rfl)
      | ok o =>
        cases o with
        | none =>
          exact .inr (.inr (bind_eq_ok.mpr
            ⟨_, bind_eq_ok.mpr ⟨_, hq, bind_eq_ok.mpr ⟨_, hi, rfl⟩⟩, rfl⟩))
        | some i => exact absurd hi (not_interval_of_unsolvable hwf hgaps hx hempty)

def staircase (height : Int) : Conjunction :=
  ⟨⟨["n"], ["i", "j"]⟩, [.ge ⟨[("j", 1)], 0⟩, .ge ⟨[("i", 1), ("j", -1)], 0⟩,
    .ge ⟨[("i", -1), ("n", 1)], -1⟩, .ge ⟨[("n", -1)], height⟩], false⟩

theorem staircase_built : (staircase 3).Built ∧ (staircase 0).Built :=
  ⟨.remade (by decide) (by decide) rfl, .remade (by decide) (by decide) rfl⟩

end LoopAudit.Conjunction
