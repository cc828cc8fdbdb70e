import LoopAudit.Conjunction
import LoopAudit.Proofs.Projection
import LoopAudit.Proofs.Space

/-! Conjunctions over a space: what their operations hold, and the exact projection along any number
of names. -/

namespace LoopAudit.Conjunction

open Function Fallible LoopAudit.System

variable {V : String → Prop} {P : (String → Int) → Prop} {a b b' : Conjunction} {c : Constraint}
  {cs : List Constraint} {space : Space} {x : String} {xs names : List String} {ts us : List System}
  {pieces : List Conjunction} {ρ σ : String → Int}

structure WellFormed (b : Conjunction) : Prop where
  distinct : b.space.Distinct
  system : b.constraints.WellFormed (· ∈ b.space.names)
  cleared : b.isContradictory = true → b.constraints = []

theorem WellFormed.univ (h : space.Distinct) : (Conjunction.univ space).WellFormed :=
  ⟨h, .nil, nofun⟩

theorem WellFormed.empty (h : space.Distinct) : (Conjunction.empty space).WellFormed :=
  ⟨h, .nil, fun _ => rfl⟩

theorem WellFormed.markEmpty (hb : b.WellFormed) : b.markEmpty.WellFormed :=
  ⟨hb.distinct, .nil, fun _ => rfl⟩

theorem WellFormed.holds_congr (hb : b.WellFormed) (h : ∀ x ∈ b.space.names, ρ x = σ x) :
    b.Holds ρ ↔ b.Holds σ :=
  and_congr_right fun _ => hb.system.holds_congr h

theorem univ_holds : (univ space).Holds ρ := ⟨rfl, nofun⟩

theorem not_holds_of_isContradictory (h : b.isContradictory = true) : ¬ b.Holds ρ := by
  rintro ⟨hfalse, -⟩
  cases hfalse.symm.trans h

theorem not_holds_empty : ¬ (empty space).Holds ρ := not_holds_of_isContradictory rfl

theorem not_holds_markEmpty : ¬ b.markEmpty.Holds ρ := not_holds_of_isContradictory rfl

theorem holds_iff_constraints (h : b.isContradictory = false) :
    b.Holds ρ ↔ ∀ c ∈ b.constraints, c.Holds ρ :=
  and_iff_right h

theorem WellFormed.constraint (hb : b.WellFormed) (hc : c ∈ b.constraints) :
    c.IsNormal (· ∈ b.space.names) :=
  hb.system.normal c hc

theorem addConstraint_eq_ok : b.addConstraint c = .ok b' ↔
    (∀ x ∈ c.form.vars, x ∈ b.space.names) ∧ (b.isContradictory = true ∧ b' = b ∨
      b.isContradictory = false ∧ (b.constraints.insert c = .ok none ∧ b' = b.markEmpty ∨
        ∃ s, b.constraints.insert c = .ok (some s) ∧ b' = { b with constraints := s })) := by
  rw [← Space.find?_not_contains_eq_none, addConstraint, constrain]
  cases c.form.vars.find? fun x => !b.space.contains x with
  | some x => simp [outcome]
  | none =>
    by_cases hb : b.isContradictory = true
    · simp [hb, outcome, eq_comm]
    · simp only [hb]
      cases b.constraints.insert c with
      | error fault => simp [outcome]
      | ok o => cases o <;> simp [outcome, eq_comm]

theorem addConstraint_fails : FailsOnly
    (fun e => c.normalize = .error e ∨
      ∃ x, e = .unknownVariable x ∧ x ∈ c.form.vars ∧ x ∉ b.space.names)
    (b.addConstraint c) := by
  unfold addConstraint constrain
  split
  · next x hx =>
    refine .error (.inr ⟨x, rfl, List.mem_of_find?_eq_some hx, fun hmem => ?_⟩)
    have hout := List.find?_some hx
    rw [Space.contains_iff.mpr hmem] at hout
    cases hout
  · split_ifs
    · exact .ok
    · split
      · next e he => exact .error (.inl (insert_eq_error.mp he))
      · exact .ok
      · exact .ok

theorem space_addConstraint {b' : Conjunction} (h : b.addConstraint c = .ok b') :
    b'.space = b.space := by
  obtain ⟨-, ⟨-, rfl⟩ | ⟨-, ⟨-, rfl⟩ | ⟨s, -, rfl⟩⟩⟩ := addConstraint_eq_ok.mp h <;> rfl

theorem addConstraints_fails : FailsOnly
    (fun e => ∃ c ∈ cs, c.normalize = .error e ∨
      ∃ x, e = .unknownVariable x ∧ x ∈ c.form.vars ∧ x ∉ b.space.names)
    (b.addConstraints cs) := by
  refine .foldlM_invariant (I := fun b' => b'.space = b.space) rfl ?_ ?_
  · exact fun _ _ _ _ hb hc => (space_addConstraint hc).trans hb
  · intro b' c hc hb
    refine addConstraint_fails.mono ?_
    rw [hb]
    exact fun e he => ⟨c, hc, he⟩

theorem addConstraint_spec (hb : b.WellFormed) (hc : c.WellFormed V)
    (h : b.addConstraint c = .ok b') :
    b'.WellFormed ∧ b'.space = b.space ∧ ∀ ρ, b'.Holds ρ ↔ c.Holds ρ ∧ b.Holds ρ := by
  obtain ⟨hscope, hcase⟩ := addConstraint_eq_ok.mp h
  have hc' : c.WellFormed (· ∈ b.space.names) := ⟨⟨hc.form.canonical, hscope⟩, hc.modulus_pos⟩
  obtain ⟨hcontra, rfl⟩ | ⟨hfeasible, ⟨hins, rfl⟩ | ⟨s, hins, rfl⟩⟩ := hcase
  · refine ⟨hb, rfl, fun ρ => ?_⟩
    simp [not_holds_of_isContradictory hcontra]
  · refine ⟨hb.markEmpty, rfl, fun ρ => ?_⟩
    have hiff := insert_holds_iff (ρ := ρ) hb.system hc' hins
    rw [holds_iff_constraints hfeasible]
    exact iff_of_false not_holds_markEmpty fun hρ => by simpa using hiff.mpr hρ
  · refine ⟨⟨hb.distinct, insert_wellFormed hb.system hc' hins, ?_⟩, rfl, fun ρ => ?_⟩
    · exact fun hcontra => absurd (hfeasible.symm.trans hcontra) (by simp)
    · have hiff := insert_holds_iff (ρ := ρ) hb.system hc' hins
      simp only [Option.some.injEq, exists_eq_left'] at hiff
      rw [holds_iff_constraints (b := { b with constraints := s }) hfeasible,
        holds_iff_constraints hfeasible]
      exact hiff

theorem addConstraints_spec (hb : b.WellFormed) (hcs : ∀ c ∈ cs, c.WellFormed V)
    (h : b.addConstraints cs = .ok b') :
    b'.WellFormed ∧ b'.space = b.space ∧ ∀ ρ, b'.Holds ρ ↔ b.Holds ρ ∧ ∀ c ∈ cs, c.Holds ρ := by
  have hstep (ρ : String → Int) := foldlM_restricts
    (I := fun b' => b'.WellFormed ∧ b'.space = b.space) (Q := fun b' => b'.Holds ρ)
    (R := fun c => c.Holds ρ)
    (fun b₁ c b₂ hc hI h₂ => by
      obtain ⟨hwf, hspace, hholds⟩ := addConstraint_spec hI.1 (hcs c hc) h₂
      exact ⟨⟨hwf, hspace.trans hI.2⟩, (hholds ρ).trans and_comm⟩) ⟨hb, rfl⟩ h
  exact ⟨(hstep 0).1.1, (hstep 0).1.2, fun ρ => (hstep ρ).2⟩

theorem ofConstraints_spec (hspace : space.Distinct) (hcs : ∀ c ∈ cs, c.WellFormed V)
    (h : ofConstraints space cs = .ok b) :
    b.WellFormed ∧ b.space = space ∧ ∀ ρ, b.Holds ρ ↔ ∀ c ∈ cs, c.Holds ρ := by
  obtain ⟨hwf, hsp, hholds⟩ := addConstraints_spec (.univ hspace) hcs h
  exact ⟨hwf, hsp, fun ρ => (hholds ρ).trans (and_iff_right univ_holds)⟩

theorem rehome_spec (hb : b.WellFormed) (hspace : space.Distinct) (h : b.rehome space = .ok b') :
    b'.WellFormed ∧ b' = { b with space } := by
  unfold rehome at h
  split at h
  · cases h
  · next hnames =>
    cases h
    have hscope := Space.find?_not_contains_eq_none.mp hnames
    exact ⟨⟨hspace, hb.system.mono hscope, hb.cleared⟩, rfl⟩

theorem intersect_spec (ha : a.WellFormed) (hb : b.WellFormed) (h : a.intersect b = .ok b') :
    b'.WellFormed ∧ b'.space = a.space.align b.space ∧
      ∀ ρ, b'.Holds ρ ↔ a.Holds ρ ∧ b.Holds ρ := by
  obtain ⟨c, hc, h⟩ := bind_eq_ok.mp h
  obtain ⟨hwf, rfl⟩ := rehome_spec ha ha.distinct.align hc
  split_ifs at h with hcontra
  · rw [hb.cleared hcontra] at h
    cases h
    refine ⟨hwf.markEmpty, rfl, fun ρ => iff_of_false not_holds_markEmpty fun hρ => ?_⟩
    exact not_holds_of_isContradictory hcontra hρ.2
  · obtain ⟨hwf', hspace, hholds⟩ :=
      addConstraints_spec hwf (fun c hc => (hb.constraint hc).toWellFormed) h
    refine ⟨hwf', hspace, fun ρ => ?_⟩
    rw [hholds, ← holds_iff_constraints (b := b) (by simpa using hcontra)]
    exact Iff.rfl

section Projection

def AgreeOff (xs : List String) (σ ρ : String → Int) : Prop := ∀ y, y ∉ xs → σ y = ρ y

theorem exists_agreeOff_nil {Q : (String → Int) → Prop} :
    (∃ σ, AgreeOff [] σ ρ ∧ Q σ) ↔ Q ρ := by
  constructor
  · rintro ⟨σ, hσ, hQ⟩
    rwa [← funext fun y => hσ y List.not_mem_nil]
  · exact fun hQ => ⟨ρ, fun _ _ => rfl, hQ⟩

theorem exists_agreeOff_cons {Q : (String → Int) → Prop} :
    (∃ σ, AgreeOff xs σ ρ ∧ ∃ v, Q (update σ x v)) ↔ ∃ σ, AgreeOff (x :: xs) σ ρ ∧ Q σ := by
  constructor
  · rintro ⟨σ, hσ, v, hQ⟩
    refine ⟨update σ x v, fun y hy => ?_, hQ⟩
    obtain ⟨hne, hy⟩ := not_or.mp (fun h => hy (List.mem_cons.mpr h))
    rw [update_of_ne hne, hσ y hy]
  · rintro ⟨σ, hσ, hQ⟩
    refine ⟨update σ x (ρ x), fun y hy => ?_, σ x, by rwa [update_idem, update_eq_self]⟩
    by_cases hne : y = x
    · subst hne
      exact update_self ..
    · rw [update_of_ne hne]
      exact hσ y (by simp [hne, hy])

theorem exists_agreeOff_append {ys : List String} {Q : (String → Int) → Prop} :
    (∃ τ, AgreeOff ys τ ρ ∧ ∃ σ, AgreeOff xs σ τ ∧ Q σ) ↔
      ∃ σ, AgreeOff (xs ++ ys) σ ρ ∧ Q σ := by
  constructor
  · rintro ⟨τ, hτ, σ, hσ, hQ⟩
    refine ⟨σ, fun y hy => ?_, hQ⟩
    obtain ⟨hx, hy⟩ := not_or.mp (fun h => hy (List.mem_append.mpr h))
    rw [hσ y hx, hτ y hy]
  · rintro ⟨σ, hσ, hQ⟩
    refine ⟨fun y => if y ∈ ys then σ y else ρ y, fun y hy => if_neg hy, σ, fun y hx => ?_, hQ⟩
    by_cases hy : y ∈ ys
    · exact (if_pos hy).symm
    · exact (hσ y (by simp [hx, hy])).trans (if_neg hy).symm

theorem eliminateFrom_describes (hts : Describes V P ts) (h : eliminateFrom ts x = .ok us) :
    Describes (Avoiding V x) (fun ρ => ∃ v, P (update ρ x v)) us := by
  have hall := Describes.collect
    (fun s hs out hout => eliminate_describes (hts.wellFormed s hs) hout) h
  refine hall.congr fun ρ => ?_
  simp only [← hts.holds_iff]
  exact ⟨fun ⟨s, hs, v, hv⟩ => ⟨v, s, hs, hv⟩, fun ⟨v, s, hs, hv⟩ => ⟨s, hs, v, hv⟩⟩

theorem eliminateEach_describes (hts : Describes V P ts)
    (h : xs.foldlM eliminateFrom ts = .ok us) :
    Describes (fun y => V y ∧ y ∉ xs) (fun ρ => ∃ σ, AgreeOff xs σ ρ ∧ P σ) us := by
  induction xs generalizing V P ts with
  | nil =>
    cases h
    exact (hts.mono fun y hy => ⟨hy, List.not_mem_nil⟩).congr fun ρ => exists_agreeOff_nil.symm
  | cons x xs ih =>
    obtain ⟨vs, hvs, h⟩ := bind_eq_ok.mp h
    refine ((ih (eliminateFrom_describes hts hvs) h).mono ?_).congr fun ρ => exists_agreeOff_cons
    rintro y ⟨⟨hy, hne⟩, hmem⟩
    exact ⟨hy, by simp [hne, hmem]⟩

theorem projectOut_spec (hb : b.WellFormed) (h : b.projectOut names = .ok pieces) :
    (∀ p ∈ pieces, p.WellFormed ∧ p.space = b.space.without names) ∧
      ∀ ρ, (∃ p ∈ pieces, p.Holds ρ) ↔ ∃ σ, AgreeOff names σ ρ ∧ b.Holds σ := by
  unfold projectOut at h
  split_ifs at h with hcontra
  · cases h
    refine ⟨nofun, fun ρ => ⟨nofun, ?_⟩⟩
    rintro ⟨σ, -, hσ⟩
    exact absurd hσ (not_holds_of_isContradictory hcontra)
  · obtain ⟨ts, hts, h⟩ := bind_eq_ok.mp h
    cases h
    have hfeasible : b.isContradictory = false := by simpa using hcontra
    have hdesc := eliminateEach_describes
      (.single (P := b.constraints.Holds) hb.system fun _ => Iff.rfl) hts
    have hmem (y : String) : y ∈ (Names.ofList names).filter b.space.contains ↔
        y ∈ names ∧ y ∈ b.space.names := by
      rw [List.mem_filter, Names.mem_ofList, Space.contains_iff]
    constructor
    · intro p hp
      obtain ⟨t, ht, rfl⟩ := List.mem_map.mp hp
      refine ⟨⟨hb.distinct.without, ?_, nofun⟩, rfl⟩
      refine (hdesc.wellFormed t ht).mono fun y hy => Space.mem_names_without.mpr ⟨hy.1, ?_⟩
      exact fun hy' => hy.2 ((hmem y).mpr ⟨hy', hy.1⟩)
    · intro ρ
      have hpieces : (∃ p ∈ ts.map fun t => Conjunction.mk (b.space.without names) t false,
          p.Holds ρ) ↔ ∃ t ∈ ts, t.Holds ρ := by simp [Holds]
      rw [hpieces, hdesc.holds_iff]
      constructor
      · rintro ⟨σ, hσ, hs⟩
        exact ⟨σ, fun y hy => hσ y fun hy' => hy ((hmem y).mp hy').1, hfeasible, hs⟩
      · rintro ⟨σ, hσ, hs⟩
        -- Names outside the space do not matter, so they may keep their values.
        refine ⟨fun y => if y ∈ b.space.names then σ y else ρ y, fun y hy => ?_, ?_⟩
        · simp only
          split_ifs with hspace
          · exact hσ y fun hy' => hy ((hmem y).mpr ⟨hy', hspace⟩)
          · rfl
        · exact (hb.system.holds_congr fun y hy => if_pos hy).mpr hs.2

end Projection

end LoopAudit.Conjunction
