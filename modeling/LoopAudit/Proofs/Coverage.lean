import LoopAudit.Implementation.Comparison
import LoopAudit.Proofs.Bounds
import LoopAudit.Proofs.Coalescing

/-! Generated loop nests against the domains of their instructions. Where the comparison passes,
both have the same iterations; where it fails, they differ, and each difference that has a point
shows one of its own. -/

namespace LoopAudit

open Fallible

namespace Point

variable {p : Point} {c : String × Int} {shown : List String}

theorem value_of_mem (hp : (p.coords.map Prod.fst).Nodup) (hc : c ∈ p.coords) :
    p.value c.1 = c.2 := by
  obtain ⟨coords⟩ := p
  induction coords with
  | nil => cases hc
  | cons d coords ih =>
    obtain ⟨name, v⟩ := d
    obtain ⟨hfresh, hnodup⟩ := List.nodup_cons.mp hp
    rcases List.mem_cons.mp hc with rfl | hc
    · simp [value, get?]
    · have hmem : c.1 ∈ coords.map Prod.fst := List.mem_map_of_mem hc
      have hne : (c.1 == name) = false := beq_eq_false_iff_ne.mpr fun heq => hfresh (heq ▸ hmem)
      have hrest := ih hnodup hc
      simpa [value, get?, List.lookup_cons, hne] using hrest

theorem before_iff {a b : String × Int} :
    before a b = true ↔ a.1 < b.1 ∨ a.1 = b.1 ∧ a.2 ≤ b.2 := by
  simp [before]

theorem mem_restrict : c ∈ (p.restrict shown).coords ↔ c ∈ p.coords ∧ c.1 ∈ shown := by
  simp [restrict]

theorem restrict_sorted (hp : (p.coords.map Prod.fst).Nodup) :
    (p.restrict shown).coords.Pairwise fun a b => a.1 < b.1 := by
  have hperm := List.mergeSort_perm (p.coords.filter fun c => shown.contains c.1) before
  have hsorted : (p.restrict shown).coords.Pairwise fun a b => before a b = true := by
    apply List.pairwise_mergeSort
    · intro a b c hab hbc
      rw [before_iff] at hab hbc ⊢
      rcases hab with hab | ⟨hab, hle⟩
      · rcases hbc with hbc | ⟨hbc, -⟩
        · exact .inl (hab.trans hbc)
        · exact .inl (hbc ▸ hab)
      · rcases hbc with hbc | ⟨hbc, hle'⟩
        · exact .inl (hab ▸ hbc)
        · exact .inr ⟨hab.trans hbc, hle.trans hle'⟩
    · intro a b
      rw [Bool.or_eq_true, before_iff, before_iff]
      rcases lt_trichotomy a.1 b.1 with hlt | heq | hlt
      · exact .inl (.inl hlt)
      · exact (le_total a.2 b.2).imp (fun hle => .inr ⟨heq, hle⟩) fun hle => .inr ⟨heq.symm, hle⟩
      · exact .inr (.inl hlt)
  have hdistinct : (p.restrict shown).coords.Pairwise fun a b => a.1 ≠ b.1 := by
    refine (hperm.pairwise_iff fun hne => Ne.symm hne).mpr ?_
    exact (List.pairwise_map.mp hp).filter _
  refine (hsorted.and hdistinct).imp fun ⟨hbefore, hne⟩ => ?_
  exact (before_iff.mp hbefore).resolve_right fun hle => hne hle.1

end Point

namespace Implementation

open Check (algebra algebra_bind_eq_ok algebra_bind_eq_error)

variable {k : Kernel} {insn : Instruction} {inames shown : List String} {pieces : List IntegerSet}
  {a b s t u first domain : IntegerSet} {rest : List IntegerSet} {id : String}
  {code : Option String} {o : Option Point} {ρ : String → Int}

/-- The assignments that one of the sets and the assumptions allow for some values of the dimensions
outside the loop variables. A name is a dimension if it is one in any of the sets. -/
def Footprint (k : Kernel) (inames : List String) (sets : List IntegerSet) (ρ : String → Int) :
    Prop :=
  ∃ σ : String → Int,
    (∀ x, (x ∈ inames ∨ ∀ s ∈ k.assumptions :: sets, x ∉ s.space.dims) → σ x = ρ x) ∧
      (∃ s ∈ sets, s.Mem σ) ∧ k.assumptions.Mem σ

/-- A point shows the names of two sets that are to be shown, in name order, and for some values of
the other names it lies in the first set only. -/
structure IsWitness (shown : List String) (a b : IntegerSet) (p : Point) : Prop where
  sorted : p.coords.Pairwise fun c d => c.1 < d.1
  names : ∀ x, x ∈ p.coords.map Prod.fst ↔ x ∈ shown ∧ (x ∈ a.space.names ∨ x ∈ b.space.names)
  point : ∃ ρ : String → Int, (∀ c ∈ p.coords, ρ c.1 = c.2) ∧ a.Mem ρ ∧ ¬ b.Mem ρ

section Sets

theorem unionOf_spec (hfirst : first.WellFormed) (hrest : ∀ s ∈ rest, s.WellFormed)
    (h : unionOf first rest = .ok u) :
    u.WellFormed ∧ (∀ x, x ∈ u.space.dims ↔ ∃ s ∈ first :: rest, x ∈ s.space.dims) ∧
      ∀ ρ, u.Mem ρ ↔ ∃ s ∈ first :: rest, s.Mem ρ := by
  have hdims (x : String) := foldlM_gathers (I := IntegerSet.WellFormed)
    (Q := fun u => x ∈ u.space.dims) (R := fun s => x ∈ s.space.dims)
    (fun s₁ s s₂ hs hI h₂ => by
      obtain ⟨hwf, hspace, -⟩ := IntegerSet.union_spec hI (hrest s hs) h₂
      exact ⟨hwf, by rw [hspace, Space.mem_dims_align]⟩) hfirst h
  have hmem (ρ : String → Int) := foldlM_gathers (I := IntegerSet.WellFormed)
    (Q := fun u => u.Mem ρ) (R := fun s => s.Mem ρ)
    (fun s₁ s s₂ hs hI h₂ => by
      obtain ⟨hwf, -, hiff⟩ := IntegerSet.union_spec hI (hrest s hs) h₂
      exact ⟨hwf, hiff ρ⟩) hfirst h
  simp only [List.exists_mem_cons_iff]
  exact ⟨(hmem 0).1, fun x => (hdims x).2, fun ρ => (hmem ρ).2⟩

theorem footprint_spec (hk : k.assumptions.WellFormed) (hs : s.WellFormed)
    (hdims : ∀ x, x ∈ s.space.dims ↔ ∃ p ∈ pieces, x ∈ p.space.dims)
    (hmem : ∀ ρ, s.Mem ρ ↔ ∃ p ∈ pieces, p.Mem ρ) (h : footprint k inames s = .ok t) :
    t.WellFormed ∧ ∀ ρ, t.Mem ρ ↔ Footprint k inames pieces ρ := by
  obtain ⟨m, hm, h⟩ := bind_eq_ok.mp h
  obtain ⟨hmwf, hmspace, hmiff⟩ := IntegerSet.intersect_spec hs hk hm
  obtain ⟨htwf, -, htiff⟩ := IntegerSet.projectOut_spec hmwf h
  -- The names that are projected out are those whose value is not kept.
  have hkept (x : String) : x ∉ m.space.dims.filter (fun d => !inames.contains d) ↔
      x ∈ inames ∨ ∀ s ∈ k.assumptions :: pieces, x ∉ s.space.dims := by
    have hout : x ∈ m.space.dims ↔ ∃ s ∈ k.assumptions :: pieces, x ∈ s.space.dims := by
      rw [hmspace, Space.mem_dims_align, hdims, List.exists_mem_cons_iff, or_comm]
    rw [List.mem_filter, hout]
    simp only [Bool.not_eq_true', List.contains_eq_mem, decide_eq_false_iff_not]
    grind
  refine ⟨htwf, fun ρ => (htiff ρ).trans (exists_congr fun σ => and_congr ?_ ?_)⟩
  · exact forall_congr' fun x => imp_congr (hkept x) Iff.rfl
  · rw [hmiff, hmem]

theorem witness_spec (ha : a.WellFormed) (hb : b.WellFormed) (h : witness shown a b = .ok o) :
    (o.isSome = true ↔ ∃ ρ, a.Mem ρ ∧ ¬ b.Mem ρ) ∧ ∀ p ∈ o, IsWitness shown a b p := by
  simp only [witness, bind_eq_ok] at h
  obtain ⟨difference, hdiff, simpler, hsimpler, sample, hsample, h⟩ := h
  cases h
  obtain ⟨hwf, hspace, hmem⟩ := IntegerSet.subtract_spec ha hb hdiff
  obtain ⟨hwf', hspace', hmem'⟩ := IntegerSet.coalesce_spec hwf hsimpler
  obtain ⟨hsome, hnone⟩ := IntegerSet.sample_spec hwf' hsample
  simp only [hmem', hmem, hspace', hspace] at hsome hnone
  cases sample with
  | none =>
    refine ⟨iff_of_false Bool.false_ne_true fun ⟨ρ, hρ⟩ => hnone rfl ρ hρ, nofun⟩
  | some p =>
    obtain ⟨hnames, hp⟩ := hsome p rfl
    refine ⟨iff_of_true rfl ⟨_, hp⟩, ?_⟩
    rintro _ ⟨⟩
    have hnodup : (p.coords.map Prod.fst).Nodup := hnames ▸ ha.distinct.align
    refine ⟨Point.restrict_sorted hnodup, fun x => ?_, p.value, fun c hc => ?_, hp⟩
    · rw [← Space.mem_names_align, ← hnames]
      simp only [List.mem_map, Point.mem_restrict]
      grind
    · exact Point.value_of_mem hnodup (Point.mem_restrict.mp hc).1

end Sets

def Covered (k : Kernel) (id : String) (pieces : List IntegerSet) : Prop :=
  ∃ insn domain, k.instruction? id = some insn ∧ pieces ≠ [] ∧
    k.domainFor insn.inames = .ok domain ∧
      ∀ ρ, Footprint k insn.inames pieces ρ ↔ Footprint k insn.inames [domain] ρ

structure Mismatch (k : Kernel) (insn : Instruction) (domain : IntegerSet)
    (pieces : List IntegerSet) (implemented desired : IntegerSet)
    (superfluous missing : Option Point) : Prop where
  implemented_iff : ∀ ρ, implemented.Mem ρ ↔ Footprint k insn.inames pieces ρ
  desired_iff : ∀ ρ, desired.Mem ρ ↔ Footprint k insn.inames [domain] ρ
  differ : ¬ ∀ ρ, Footprint k insn.inames pieces ρ ↔ Footprint k insn.inames [domain] ρ
  superfluous_iff : superfluous.isSome = true ↔
    ∃ ρ, Footprint k insn.inames pieces ρ ∧ ¬ Footprint k insn.inames [domain] ρ
  missing_iff : missing.isSome = true ↔
    ∃ ρ, Footprint k insn.inames [domain] ρ ∧ ¬ Footprint k insn.inames pieces ρ
  shows_one : superfluous.isSome = true ∨ missing.isSome = true
  superfluous_point : ∀ p ∈ superfluous,
    IsWitness (insn.inames ++ domain.space.params) implemented desired p
  missing_point : ∀ p ∈ missing,
    IsWitness (insn.inames ++ domain.space.params) desired implemented p

section Comparison

variable {implemented desired : IntegerSet} {superfluous missing : Option Point}

theorem footprint_domain_spec (hk : k.assumptions.WellFormed)
    (hdomains : ∀ d ∈ k.domains, d.WellFormed) (hdomain : k.domainFor inames = .ok domain)
    (h : footprint k inames domain = .ok t) :
    t.WellFormed ∧ ∀ ρ, t.Mem ρ ↔ Footprint k inames [domain] ρ := by
  have hwf := Check.domainFor_wellFormed hdomains hdomain
  exact footprint_spec hk hwf (fun x => by simp) (fun ρ => by simp) h

theorem footprint_union_spec (hk : k.assumptions.WellFormed)
    (hpieces : ∀ s ∈ first :: rest, s.WellFormed) (hunion : unionOf first rest = .ok u)
    (h : footprint k inames u = .ok t) :
    t.WellFormed ∧ ∀ ρ, t.Mem ρ ↔ Footprint k inames (first :: rest) ρ := by
  obtain ⟨hfirst, hrest⟩ := List.forall_mem_cons.mp hpieces
  obtain ⟨hwf, hdims, hmem⟩ := unionOf_spec hfirst hrest hunion
  exact footprint_spec hk hwf hdims hmem h

theorem covers_ok (hk : k.assumptions.WellFormed) (hdomains : ∀ d ∈ k.domains, d.WellFormed)
    (hpieces : ∀ s ∈ pieces, s.WellFormed) (h : covers k code id pieces = .ok ()) :
    Covered k id pieces := by
  unfold covers at h
  cases hinsn : k.instruction? id with
  | none => simp [hinsn] at h
  | some insn =>
    cases pieces with
    | nil => simp [hinsn] at h
    | cons first rest =>
      simp only [hinsn, algebra_bind_eq_ok] at h
      obtain ⟨generated, hgenerated, domain, hdomain, desired, hdesired, implemented, himplemented,
        equal, hequal, h⟩ := h
      obtain ⟨hdwf, hdiff⟩ := footprint_domain_spec hk hdomains hdomain hdesired
      obtain ⟨hiwf, hiiff⟩ := footprint_union_spec hk hpieces hgenerated himplemented
      cases equal with
      | false =>
        simp only [Bool.false_eq_true, if_false, algebra_bind_eq_ok] at h
        obtain ⟨_, -, _, -, h⟩ := h
        cases h
      | true =>
        have hsame := (IntegerSet.isEqual_spec hiwf hdwf hequal).mp rfl
        refine ⟨insn, domain, hinsn, nofun, hdomain, fun ρ => ?_⟩
        rw [← hiiff, ← hdiff]
        exact hsame ρ

theorem covers_mismatch {found : Option String} (hk : k.assumptions.WellFormed)
    (hdomains : ∀ d ∈ k.domains, d.WellFormed) (hpieces : ∀ s ∈ pieces, s.WellFormed)
    {name : String} (h : covers k code id pieces =
      .error (.domainMismatch name implemented desired superfluous missing found)) :
    name = id ∧ found = code ∧ ∃ insn domain, k.instruction? id = some insn ∧
      k.domainFor insn.inames = .ok domain ∧
        Mismatch k insn domain pieces implemented desired superfluous missing := by
  unfold covers at h
  cases hinsn : k.instruction? id with
  | none => simp [hinsn] at h
  | some insn =>
    cases pieces with
    | nil => simp [hinsn] at h
    | cons first rest =>
      simp only [hinsn] at h
      obtain ⟨generated, hgenerated, h⟩ := algebra_bind_eq_error h nofun
      obtain ⟨domain, hdomain, h⟩ := algebra_bind_eq_error h nofun
      obtain ⟨des, hdes, h⟩ := algebra_bind_eq_error h nofun
      obtain ⟨impl, himpl, h⟩ := algebra_bind_eq_error h nofun
      obtain ⟨equal, hequal, h⟩ := algebra_bind_eq_error h nofun
      cases equal with
      | true => cases h
      | false =>
        obtain ⟨sup, hsup, h⟩ := algebra_bind_eq_error h nofun
        obtain ⟨mis, hmis, h⟩ := algebra_bind_eq_error h nofun
        cases h
        obtain ⟨hdwf, hdiff⟩ := footprint_domain_spec hk hdomains hdomain hdes
        obtain ⟨hiwf, hiiff⟩ := footprint_union_spec hk hpieces hgenerated himpl
        obtain ⟨hsupiff, hsuppoint⟩ := witness_spec hiwf hdwf hsup
        obtain ⟨hmisiff, hmispoint⟩ := witness_spec hdwf hiwf hmis
        have hdiffer : ¬ ∀ ρ, implemented.Mem ρ ↔ desired.Mem ρ := fun heq =>
          Bool.false_ne_true ((IntegerSet.isEqual_spec hiwf hdwf hequal).mpr heq)
        have hone : superfluous.isSome = true ∨ missing.isSome = true := by
          rw [hsupiff, hmisiff]
          grind
        simp only [hiiff, hdiff] at hsupiff hmisiff hdiffer
        exact ⟨rfl, rfl, insn, domain, rfl, hdomain, hiiff, hdiff, hdiffer, hsupiff, hmisiff, hone,
          hsuppoint, hmispoint⟩

/-- A record that passes covers the domain of each of its instructions. One that is reported as a
mismatch differs from the domain of its instruction, a point is shown of each difference that has
one, and it extends to a point of that difference. -/
theorem verify_exact {record : Record} (hk : k.assumptions.Built)
    (hdomains : ∀ d ∈ k.domains, d.Built)
    (hrecord : ∀ id pieces, (id, pieces) ∈ record → ∀ s ∈ pieces, s.Built) :
    (verify k record code = .ok () → ∀ id pieces, (id, pieces) ∈ record → Covered k id pieces) ∧
      ∀ id implemented desired superfluous missing found,
        verify k record code =
          .error (.domainMismatch id implemented desired superfluous missing found) →
        found = code ∧ ∃ pieces insn domain, (id, pieces) ∈ record ∧
          k.instruction? id = some insn ∧ k.domainFor insn.inames = .ok domain ∧
            Mismatch k insn domain pieces implemented desired superfluous missing := by
  have hdomains' : ∀ d ∈ k.domains, d.WellFormed := fun d hd => (hdomains d hd).wellFormed
  constructor
  · intro h id pieces hmem
    have hpieces : ∀ s ∈ pieces, s.WellFormed := fun s hs =>
      (hrecord id pieces hmem s hs).wellFormed
    exact covers_ok hk.wellFormed hdomains' hpieces (forM_eq_ok.mp h (id, pieces) hmem)
  · intro id implemented desired superfluous missing found h
    obtain ⟨⟨id', pieces⟩, hmem, h⟩ := forM_eq_error h
    have hpieces : ∀ s ∈ pieces, s.WellFormed := fun s hs =>
      (hrecord id' pieces hmem s hs).wellFormed
    obtain ⟨rfl, rfl, insn, domain, hinsn, hdomain, hmismatch⟩ :=
      covers_mismatch hk.wellFormed hdomains' hpieces h
    exact ⟨rfl, pieces, insn, domain, hmem, hinsn, hdomain, hmismatch⟩

def stride (r : Int) : IntegerSet :=
  ⟨⟨["n"], ["i", "k"]⟩, [⟨⟨["n"], ["i", "k"]⟩, [.eq ⟨[("i", 1), ("k", -2)], -r⟩,
    .ge ⟨[("i", 1)], 0⟩, .ge ⟨[("i", -1), ("n", 1)], -1⟩], false⟩]⟩

theorem stride_built {r : Int} (hr : r = 0 ∨ r = 1) : (stride r).Built := by
  rcases hr with rfl | rfl
  · exact .remade (by decide) (by decide) rfl
  · exact .remade (by decide) (by decide) rfl

theorem stride_verify :
    (verify (Check.halves (.var "n")) [("s", [stride 0, stride 1])] none = .ok () ∧
      Covered (Check.halves (.var "n")) "s" [stride 0, stride 1]) ∧
    ∃ implemented desired p,
      verify (Check.halves (.var "n")) [("s", [stride 0])] none =
        .error (.domainMismatch "s" implemented desired none (some p) none) ∧
      IsWitness ["i", "n"] desired implemented p := by
  have hk := Check.halves_built (.var "n")
  have hone : verify (Check.halves (.var "n")) [("s", [stride 0, stride 1])] none = .ok () := rfl
  obtain ⟨implemented, desired, coords, htwo⟩ : ∃ implemented desired coords,
      verify (Check.halves (.var "n")) [("s", [stride 0])] none =
        .error (.domainMismatch "s" implemented desired none (some ⟨coords⟩) none) :=
    ⟨_, _, _, rfl⟩
  refine ⟨⟨hone, ?_⟩, implemented, desired, ⟨coords⟩, htwo, ?_⟩
  · refine (verify_exact hk.1 hk.2 ?_).1 hone _ _ (List.mem_singleton.mpr rfl)
    simp [stride_built]
  · obtain ⟨-, pieces, insn, domain, -, hinsn, hdomain, hmismatch⟩ :=
      (verify_exact hk.1 hk.2 (by simp [stride_built])).2 _ _ _ _ _ _ htwo
    obtain rfl : _ = insn := Option.some.inj (Eq.trans rfl hinsn)
    obtain rfl : domain = IntegerSet.belowN := Except.ok.inj (hdomain.symm.trans rfl)
    exact hmismatch.missing_point _ rfl

end Comparison

end Implementation

end LoopAudit
