import LoopAudit.Proofs.Exactness

/-! The sample of a conjunction is canonical. The search tries the values of a name nearest to zero
first and passes over no value that a solution has. As long as no value is left untried it finds the
least solution in the order of the names, whatever the constraints that describe the solutions. -/

namespace LoopAudit

open Function Fallible

namespace Sample

variable {s : System} {i : Interval} {v w : Int} {vs values before after : List Int}
  {names : List String} {p p' : Progress}
  {step : Int → Progress → Except SetError (Option (List Int) × Progress)}

theorem nearer_trichotomy (v w : Int) : Nearer v w ∨ v = w ∨ Nearer w v := by
  unfold Nearer
  omega

theorem mem_nearby_of_nearer (hv : v ∈ nearby i) (hw : i.Mem w) (h : Nearer w v) :
    w ∈ nearby i := by
  obtain ⟨hreach, hmem, hfits⟩ := mem_nearby.mp hv
  refine mem_nearby.mpr ⟨?_, hw, ?_⟩ <;> obtain ⟨_ | l, _ | u⟩ := i <;>
    simp only [Nearer, Interval.Mem, Interval.nearest, Option.elim, Option.mem_def, reduceCtorEq,
      Option.some.injEq, forall_eq', false_imp_iff, implies_true, true_and, and_true, Word.Fits,
      Word.least, Word.greatest, maxCandidates] at * <;> omega

theorem mem_of_nearer (hsplit : candidates i = before ++ v :: after) (hw : i.Mem w)
    (h : Nearer w v) : w ∈ before := by
  have hnearby : ∃ rest, nearby i = before ++ v :: rest := by
    refine ⟨after ++ (nearby i).drop maxCandidates, ?_⟩
    rw [List.append_cons, ← List.append_assoc, ← List.append_cons, ← hsplit]
    exact (List.take_append_drop maxCandidates (nearby i)).symm
  obtain ⟨rest, hnearby⟩ := hnearby
  have hmem : w ∈ nearby i := mem_nearby_of_nearer (by simp [hnearby]) hw h
  have hsorted := nearby_sorted (i := i)
  rw [hnearby] at hmem hsorted
  obtain ⟨-, hlater, -⟩ := List.pairwise_append.mp hsorted
  rcases List.mem_append.mp hmem with hmem | hmem
  · exact hmem
  · rcases List.mem_cons.mp hmem with rfl | hmem
    · exact absurd h h.asymm
    · exact absurd h ((List.pairwise_cons.mp hlater).1 w hmem).asymm

theorem firstSuccess_first {N : Int → Prop} {S : Int → List Int → Prop}
    (hnone : ∀ v p p', step v p = .ok (none, p') → p'.truncated = false →
      p.truncated = false ∧ N v)
    (hsome : ∀ v rest p p', step v p = .ok (some rest, p') → p'.truncated = false →
      p.truncated = false ∧ S v rest)
    (h : firstSuccess step vs p = .ok (some values, p')) (hp' : p'.truncated = false) :
    p.truncated = false ∧ ∃ before v after rest, vs = before ++ v :: after ∧ values = v :: rest ∧
      S v rest ∧ ∀ w ∈ before, N w := by
  induction vs generalizing p with
  | nil => cases h
  | cons v vs ih =>
    rcases firstSuccess_cons.mp h with ⟨rest, hvalues, hstep⟩ | ⟨q, hq, h⟩
    · obtain ⟨hp, hS⟩ := hsome v rest p p' hstep hp'
      exact ⟨hp, [], v, vs, rest, rfl, Option.some.inj hvalues, hS, by simp⟩
    · obtain ⟨hq', before, u, after, rest, rfl, hvalues, hS, hbefore⟩ := ih h
      obtain ⟨hp, hN⟩ := hnone v p q hq hq'
      exact ⟨hp, v :: before, u, after, rest, rfl, hvalues, hS,
        List.forall_mem_cons.mpr ⟨hN, hbefore⟩⟩

/-- Equal, or first in the lexicographic order that compares coordinates by `Nearer`. -/
def Precedes (vs ws : List Int) : Prop := vs = ws ∨ List.Lex Nearer vs ws

theorem Precedes.antisymm {ws : List Int} (h : Precedes vs ws) (h' : Precedes ws vs) : vs = ws := by
  rcases h with h | h
  · exact h
  · rcases h' with h' | h'
    · exact h'.symm
    · exact absurd h' (List.lex_asymm Nearer.asymm h)

theorem solve_least (hs : s.WellFormed (· ∈ names))
    (h : solve names s p = .ok (some values, p')) (hp' : p'.truncated = false) :
    p.truncated = false ∧ ∀ ρ, s.Holds ρ → Precedes values (names.map ρ) := by
  induction names generalizing s p p' values with
  | nil =>
    obtain ⟨q, hq, h⟩ := bind_eq_ok.mp h
    obtain rfl := eq_nil_of_over_nil hs
    cases h
    exact ⟨tick_truncated hq ▸ hp', fun ρ _ => .inl rfl⟩
  | cons x later ih =>
    obtain ⟨q, hq, ⟨-, hnone, -⟩ | ⟨i, q', hinterval, hfound, hmark⟩⟩ := solve_cons h
    · cases hnone
    rw [← tick_truncated hq]
    have hq' : q'.truncated = false := by simpa [hmark] using hp'
    -- Each value tried before is ruled out; the one found leaves a least solution of the rest.
    obtain ⟨hq, before, v, after, rest, hsplit, rfl, hleast, hbefore⟩ := firstSuccess_first
      (N := fun v => ∀ ρ, ¬ s.Holds (update ρ x v))
      (S := fun v rest => ∀ ρ, s.Holds (update ρ x v) → Precedes rest (later.map ρ))
      (fun v p₁ p₂ => attempt_eq_none hs fun _ _ _ => solve_complete)
      (fun v rest p₁ p₂ hstep hp₂ => by
        obtain ⟨hnone, -⟩ | ⟨t, hwf, hiff, hsolve⟩ := attempt_cases hs hstep
        · cases hnone
        · obtain ⟨hp₁, hrest⟩ := ih hwf hsolve hp₂
          exact ⟨hp₁, fun ρ hρ => hrest ρ ((hiff ρ).mpr hρ)⟩)
      hfound hq'
    refine ⟨hq, fun ρ hρ => ?_⟩
    have hself : s.Holds (update ρ x (ρ x)) := by rwa [update_eq_self]
    have hmem : i.Mem (ρ x) := (intervalOf_spec hs hinterval).mem_of_some hρ Interval.mem_all
    rw [Precedes, List.map_cons]
    rcases nearer_trichotomy v (ρ x) with hnear | rfl | hnear
    · exact .inr (.rel hnear)
    · rcases hleast ρ hself with heq | hlex
      · exact .inl (congrArg _ heq)
      · exact .inr (.cons hlex)
    · exact absurd hself (hbefore (ρ x) (mem_of_nearer hsplit hmem hnear) ρ)

end Sample

namespace Conjunction

open Sample

variable {b b' : Conjunction} {p p' : Point}

/-- The search for a sample returns the point, and until then no name had values left untried. -/
def SampledInFull (b : Conjunction) (p : Point) : Prop :=
  b.isContradictory = false ∧ ∃ values q,
    solve b.space.names b.constraints .start = .ok (some values, q) ∧
      q.truncated = false ∧ p = ⟨b.space.names.zip values⟩

theorem SampledInFull.sample_eq (h : b.SampledInFull p) : b.sample = .ok (some p) := by
  obtain ⟨hb, values, q, hsolve, -, rfl⟩ := h
  simp [sample, hb, find, hsolve, bind, Except.bind]

theorem SampledInFull.coords_eq (hb : b.WellFormed) (h : b.SampledInFull p) :
    p.coords = b.space.names.zip (b.space.names.map p.value) := by
  obtain ⟨-, values, q, hsolve, -, rfl⟩ := h
  rw [Point.map_value_zip hb.distinct (solve_sound hb.system hsolve).1]

theorem SampledInFull.precedes (hb : b.WellFormed) (h : b.SampledInFull p) {ρ : String → Int}
    (hρ : b.Holds ρ) : Precedes (b.space.names.map p.value) (b.space.names.map ρ) := by
  obtain ⟨-, values, q, hsolve, hmark, rfl⟩ := h
  rw [Point.map_value_zip hb.distinct (solve_sound hb.system hsolve).1]
  exact (solve_least hb.system hsolve hmark).2 ρ hρ.2

theorem SampledInFull.unique (hb : b.WellFormed) (hb' : b'.WellFormed) (hspace : b'.space = b.space)
    (hsame : ∀ ρ, b'.Holds ρ ↔ b.Holds ρ) (h : b.SampledInFull p) (h' : b'.SampledInFull p') :
    p' = p := by
  have hholds : b.Holds p.value := (sample_eq_some hb h.sample_eq).2
  have hholds' : b'.Holds p'.value := (sample_eq_some hb' h'.sample_eq).2
  have hle := h.precedes hb ((hsame _).mp hholds')
  have hge := h'.precedes hb' ((hsame _).mpr hholds)
  rw [hspace] at hge
  have hcoords : p'.coords = p.coords := by
    rw [h.coords_eq hb, h'.coords_eq hb', hspace, hle.antisymm hge]
  cases p
  cases p'
  exact congrArg _ hcoords

/-- A sample found with no value left untried is the least solution: parameters come first, then
dimensions, each compared by its distance from zero and positive before negative. So it depends on
the solutions alone, not on the constraints that describe them. -/
theorem sample_canonical (hb : b.Built) (h : b.SampledInFull p) :
    b.sample = .ok (some p) ∧ b.Holds p.value ∧
      (∀ ρ, b.Holds ρ → Precedes ((b.space.params ++ b.space.dims).map p.value)
        ((b.space.params ++ b.space.dims).map ρ)) ∧
      ∀ b' : Conjunction, b'.Built → b'.space = b.space → (∀ ρ, b'.Holds ρ ↔ b.Holds ρ) →
        ∀ p', b'.SampledInFull p' → p' = p := by
  refine ⟨h.sample_eq, (sample_eq_some hb.wellFormed h.sample_eq).2,
    fun ρ hρ => h.precedes hb.wellFormed hρ, fun b' hb' hspace hsame p' h' => ?_⟩
  exact h.unique hb.wellFormed hb'.wellFormed hspace hsame h'

def window : Conjunction :=
  ⟨⟨[], ["i", "j"]⟩, [.ge ⟨[("i", -2), ("j", 3)], 0⟩, .ge ⟨[("i", 2), ("j", -3)], 1⟩,
    .ge ⟨[("i", 1)], -5⟩, .ge ⟨[("i", -1)], 9⟩], false⟩

def otherWindow : Conjunction :=
  ⟨⟨[], ["i", "j"]⟩, [.ge ⟨[("i", -1), ("j", -1)], 15⟩, .ge ⟨[("j", 1)], -4⟩,
    .ge ⟨[("i", 2), ("j", -3)], 1⟩, .ge ⟨[("i", -2), ("j", 3)], 0⟩], false⟩

theorem window_built : window.Built ∧ otherWindow.Built :=
  ⟨.remade (by decide) (by decide) rfl, .remade (by decide) (by decide) rfl⟩

theorem window_holds_iff (ρ : String → Int) : otherWindow.Holds ρ ↔ window.Holds ρ := by
  simp only [Holds, window, otherWindow, true_and, System.Holds,
    List.forall_mem_cons, List.not_mem_nil, false_imp_iff, implies_true, and_true,
    Constraint.ge_holds_iff, Affine.eval_cons, Affine.eval_nil]
  omega

theorem window_sample :
    window.SampledInFull ⟨[("i", 6), ("j", 4)]⟩ ∧
      (∀ ρ, window.Holds ρ → Precedes [6, 4] [ρ "i", ρ "j"]) ∧
      otherWindow.SampledInFull ⟨[("i", 6), ("j", 4)]⟩ := by
  have h : window.SampledInFull ⟨[("i", 6), ("j", 4)]⟩ := ⟨rfl, _, _, rfl, rfl, rfl⟩
  obtain ⟨p', h'⟩ : ∃ p', otherWindow.SampledInFull p' := ⟨_, rfl, _, _, rfl, rfl, rfl⟩
  obtain ⟨-, -, hleast, hunique⟩ := sample_canonical window_built.1 h
  exact ⟨h, hleast, hunique otherWindow window_built.2 rfl window_holds_iff p' h' ▸ h'⟩

end Conjunction

end LoopAudit
