import LoopAudit.Proofs.Representation

/-! Conjunctions do not depend on the order in which they are built. Inserting a constraint may drop
it, tighten a parallel one in place, or find a contradiction after which nothing more is kept; but
the system that is left holds, of each class of parallel normal forms, the tightest one, and it is
lost exactly if the constraints are not compatible. Both are told by the constraints as a set. -/

namespace LoopAudit

namespace System

variable {cs ds : List Constraint} {s t : System} {c d e : Constraint}

section Merging

theorem eq_of_parallel (h : c.parallel d = true) (hconst : c.form.constant = d.form.constant) :
    c = d := by
  obtain ⟨hrel, hterms⟩ := parallel_iff.mp h
  obtain ⟨r, ts, k⟩ := c
  obtain ⟨r', ts', k'⟩ := d
  simp only at hrel hterms hconst
  rw [hrel, hterms, hconst]

def Covers (c d : Constraint) : Prop := c.parallel d = true ∧ c.form.constant ≤ d.form.constant

theorem Covers.trans (h : Covers c d) (h' : Covers d e) : Covers c e :=
  ⟨parallel_trans h.1 h'.1, h.2.trans h'.2⟩

theorem Covers.refl : Covers c c := ⟨parallel_self, le_rfl⟩

theorem Covers.antisymm (h : Covers c d) (h' : Covers d c) : c = d :=
  eq_of_parallel h.1 (le_antisymm h.2 h'.2)

theorem merge_tightest (h : d.parallel c = true) :
    (c.relation ≠ .ge ∧ d ≠ c ∧ merge c (d :: s) = none) ∨
    (c.relation ≠ .ge → d = c) ∧
      ∃ b, Covers b c ∧ Covers b d ∧ merge c (d :: s) = some (b :: s) := by
  have hexact (hr : c.relation ≠ .ge) (hmerge : merge c (d :: s) =
      if d.form.constant = c.form.constant then some (d :: s) else none) :
      (c.relation ≠ .ge ∧ d ≠ c ∧ merge c (d :: s) = none) ∨ (c.relation ≠ .ge → d = c) ∧
        ∃ b, Covers b c ∧ Covers b d ∧ merge c (d :: s) = some (b :: s) := by
    by_cases hconst : d.form.constant = c.form.constant
    · exact .inr ⟨fun _ => eq_of_parallel h hconst, d, ⟨h, hconst.le⟩, .refl,
        hmerge.trans (if_pos hconst)⟩
    · exact .inl ⟨hr, fun heq => hconst (by rw [heq]), hmerge.trans (if_neg hconst)⟩
  cases hr : c.relation with
  | eq => exact hr ▸ hexact (by simp [hr]) (by rw [merge, if_pos h, hr])
  | mod m => exact hr ▸ hexact (by simp [hr]) (by rw [merge, if_pos h, hr])
  | ge =>
    refine .inr ⟨by simp, if c.form.constant < d.form.constant then c else d, ?_, ?_, ?_⟩
    · split
      · exact .refl
      · exact ⟨h, by omega⟩
    · split
      · exact ⟨parallel_symm h, by omega⟩
      · exact .refl
    · rw [merge, if_pos h, hr]

theorem merge_eq_none (h : s.merge c = none) :
    c.relation ≠ .ge ∧ ∃ d ∈ s, d.parallel c = true ∧ d ≠ c := by
  induction s with
  | nil => cases h
  | cons a s ih =>
    by_cases hpar : a.parallel c = true
    · rcases merge_tightest (s := s) hpar with ⟨hr, hne, -⟩ | ⟨-, b, -, -, hsome⟩
      · exact ⟨hr, a, List.mem_cons_self .., hpar, hne⟩
      · rw [hsome] at h
        cases h
    · rw [merge_of_not_parallel hpar, Option.map_eq_none_iff] at h
      obtain ⟨hr, d, hd, hdc⟩ := ih h
      exact ⟨hr, d, List.mem_cons_of_mem _ hd, hdc⟩

theorem eq_of_merge (hs : s.Pairwise fun c d => ¬ c.parallel d) (h : s.merge c = some t)
    (hr : c.relation ≠ .ge) (hd : d ∈ s) (hdc : d.parallel c = true) : d = c := by
  induction s generalizing t with
  | nil => cases hd
  | cons a s ih =>
    obtain ⟨ha, hs⟩ := List.pairwise_cons.mp hs
    by_cases hpar : a.parallel c = true
    · rcases merge_tightest (s := s) hpar with ⟨-, -, hnone⟩ | ⟨heq, -⟩
      · rw [hnone] at h
        cases h
      · rcases List.mem_cons.mp hd with rfl | hd
        · exact heq hr
        · exact absurd (parallel_trans hpar (parallel_symm hdc)) (ha d hd)
    · rw [merge_of_not_parallel hpar] at h
      obtain ⟨u, hu, -⟩ := Option.map_eq_some_iff.mp h
      rcases List.mem_cons.mp hd with rfl | hd
      · exact absurd hdc hpar
      · exact ih hs hu hd

theorem exists_covers_of_merge (h : s.merge c = some t) (hd : d = c ∨ d ∈ s) :
    ∃ e ∈ t, Covers e d := by
  induction s generalizing t with
  | nil =>
    cases h
    obtain rfl : d = c := hd.resolve_right List.not_mem_nil
    exact ⟨d, List.mem_singleton.mpr rfl, .refl⟩
  | cons a s ih =>
    by_cases hpar : a.parallel c = true
    · rcases merge_tightest (s := s) hpar with ⟨-, -, hnone⟩ | ⟨-, b, hbc, hba, hsome⟩
      · rw [hnone] at h
        cases h
      · obtain rfl : b :: s = t := Option.some.inj (hsome.symm.trans h)
        rcases hd with rfl | hd
        · exact ⟨b, List.mem_cons_self .., hbc⟩
        · rcases List.mem_cons.mp hd with rfl | hd
          · exact ⟨b, List.mem_cons_self .., hba⟩
          · exact ⟨d, List.mem_cons_of_mem _ hd, .refl⟩
    · rw [merge_of_not_parallel hpar] at h
      obtain ⟨u, hu, rfl⟩ := Option.map_eq_some_iff.mp h
      have htail (hd : d = c ∨ d ∈ s) : ∃ e ∈ a :: u, Covers e d := by
        obtain ⟨e, he, hed⟩ := ih hu hd
        exact ⟨e, List.mem_cons_of_mem _ he, hed⟩
      rcases hd with rfl | hd
      · exact htail (.inl rfl)
      · rcases List.mem_cons.mp hd with rfl | hd
        · exact ⟨d, List.mem_cons_self .., .refl⟩
        · exact htail (.inr hd)

end Merging

section Inserting

def IsForm (cs : List Constraint) (d : Constraint) : Prop := ∃ c ∈ cs, c.normalize = .ok (.proper d)

theorem IsForm.mono (h : IsForm cs d) (hsub : ∀ c ∈ cs, c ∈ ds) : IsForm ds d := by
  obtain ⟨c, hc, hd⟩ := h
  exact ⟨c, hsub c hc, hd⟩

theorem isForm_append : IsForm (cs ++ ds) d ↔ IsForm cs d ∨ IsForm ds d := by
  simp only [IsForm, List.mem_append, or_and_right, exists_or]

def Feasible (c : Constraint) : Prop :=
  c.normalize = .ok .trivial ∨ ∃ d, c.normalize = .ok (.proper d)

structure Compatible (cs : List Constraint) : Prop where
  feasible : ∀ c ∈ cs, Feasible c
  agree : ∀ d e, IsForm cs d → IsForm cs e → d.parallel e = true → d.relation ≠ .ge → d = e

theorem Compatible.mono (h : Compatible ds) (hsub : ∀ c ∈ cs, c ∈ ds) : Compatible cs :=
  ⟨fun c hc => h.feasible c (hsub c hc), fun d e hd he => h.agree d e (hd.mono hsub) (he.mono hsub)⟩

/-- The system holds the tightest of each class of parallel normal forms. -/
structure Condenses (cs : List Constraint) (s : System) : Prop extends Compatible cs where
  apart : s.Pairwise fun c d => ¬ c.parallel d
  isForm : ∀ d ∈ s, IsForm cs d
  covers : ∀ d, IsForm cs d → ∃ e ∈ s, Covers e d

theorem Condenses.nil : Condenses [] [] where
  feasible := by simp
  agree := by simp [IsForm]
  apart := .nil
  isForm := by simp
  covers := by simp [IsForm]

theorem Condenses.congr (h : Condenses cs s) (hfeasible : ∀ c ∈ ds, Feasible c)
    (hforms : ∀ d, IsForm ds d ↔ IsForm cs d) : Condenses ds s where
  feasible := hfeasible
  agree d e hd he := h.agree d e ((hforms d).mp hd) ((hforms e).mp he)
  apart := h.apart
  isForm d hd := (hforms d).mpr (h.isForm d hd)
  covers d hd := h.covers d ((hforms d).mp hd)

theorem Condenses.mem_of_exact (h : Condenses cs s) (hd : IsForm cs d) (hr : d.relation ≠ .ge) :
    d ∈ s := by
  obtain ⟨e, he, hcover⟩ := h.covers d hd
  have hre : e.relation ≠ .ge := by rwa [(parallel_iff.mp hcover.1).1]
  rwa [← h.agree e d (h.isForm e he) hd hcover.1 hre]

theorem isForm_concat (h : c.normalize = .ok (.proper e)) :
    IsForm (cs ++ [c]) d ↔ IsForm cs d ∨ d = e := by
  simp [IsForm, or_and_right, exists_or, h, eq_comm]

theorem feasible_concat (hcs : ∀ b ∈ cs, Feasible b) (hc : Feasible c) :
    ∀ b ∈ cs ++ [c], Feasible b :=
  List.forall_mem_append.mpr ⟨hcs, List.forall_mem_singleton.mpr hc⟩

theorem Condenses.merge (h : Condenses cs s) (hc : c.normalize = .ok (.proper e))
    (hmerge : s.merge e = some t) : Condenses (cs ++ [c]) t := by
  -- An equality or a congruence that merges is the one that is there already.
  have hagree (d : Constraint) (hd : IsForm cs d) (hpar : d.parallel e = true)
      (hr : d.relation ≠ .ge) : d = e :=
    eq_of_merge h.apart hmerge ((parallel_iff.mp hpar).1 ▸ hr) (h.mem_of_exact hd hr) hpar
  refine ⟨⟨feasible_concat h.feasible (.inr ⟨e, hc⟩), fun a b ha hb hpar hr => ?_⟩,
    merge_apart h.apart hmerge, fun d hd => ?_, fun d hd => ?_⟩
  · rcases (isForm_concat hc).mp ha with ha | rfl
    · rcases (isForm_concat hc).mp hb with hb | rfl
      · exact h.agree a b ha hb hpar hr
      · exact hagree a ha hpar hr
    · rcases (isForm_concat hc).mp hb with hb | rfl
      · exact (hagree b hb (parallel_symm hpar) ((parallel_iff.mp hpar).1 ▸ hr)).symm
      · rfl
  · exact (isForm_concat hc).mpr ((mem_merge hmerge hd).symm.imp_left (h.isForm d))
  · rcases (isForm_concat hc).mp hd with hd | rfl
    · obtain ⟨f, hf, hfd⟩ := h.covers d hd
      obtain ⟨g, hg, hgf⟩ := exists_covers_of_merge hmerge (.inr hf)
      exact ⟨g, hg, hgf.trans hfd⟩
    · exact exists_covers_of_merge hmerge (.inl rfl)

theorem Condenses.not_compatible_of_merge (h : Condenses cs s)
    (hc : c.normalize = .ok (.proper e)) (hmerge : s.merge e = none) :
    ¬ Compatible (cs ++ [c]) := by
  intro hcompatible
  obtain ⟨hr, d, hd, hpar, hne⟩ := merge_eq_none hmerge
  refine hne (hcompatible.agree d e ?_ ?_ hpar ?_)
  · exact (isForm_concat hc).mpr (.inl (h.isForm d hd))
  · exact (isForm_concat hc).mpr (.inr rfl)
  · rwa [(parallel_iff.mp hpar).1]

theorem insert_condenses {o : Option System} (h : Condenses cs s) (ho : s.insert c = .ok o) :
    (∃ t, o = some t ∧ Condenses (cs ++ [c]) t) ∨ o = none ∧ ¬ Compatible (cs ++ [c]) := by
  obtain ⟨n, hn, ho⟩ := Fallible.bind_eq_ok.mp ho
  cases n with
  | infeasible =>
    refine .inr ⟨(Except.ok.inj ho).symm, fun hcompatible => ?_⟩
    rcases hcompatible.feasible c (by simp) with htrivial | ⟨d, hd⟩
    · cases hn.symm.trans htrivial
    · cases hn.symm.trans hd
  | trivial =>
    refine .inl ⟨s, (Except.ok.inj ho).symm, ?_⟩
    refine h.congr (feasible_concat h.feasible (.inl hn)) fun d => ?_
    simp [IsForm, or_and_right, exists_or, hn]
  | proper e =>
    obtain rfl : s.merge e = o := Except.ok.inj ho
    cases hmerge : s.merge e with
    | none => exact .inr ⟨rfl, h.not_compatible_of_merge hn hmerge⟩
    | some t => exact .inl ⟨t, rfl, h.merge hn hmerge⟩

theorem eq_of_apart (hs : s.Pairwise fun c d => ¬ c.parallel d) (hc : c ∈ s) (hd : d ∈ s)
    (hpar : c.parallel d = true) : c = d := by
  have : Std.Symm fun c d : Constraint => ¬ c.parallel d :=
    ⟨fun _ _ h hpar => h (parallel_symm hpar)⟩
  by_contra hne
  exact hs.forall hc hd hne hpar

theorem Condenses.subset (hs : Condenses cs s) (ht : Condenses cs t) (hd : d ∈ s) : d ∈ t := by
  -- The member of one system is covered by one of the other, and that by one of the first again.
  obtain ⟨e, he, hed⟩ := ht.covers d (hs.isForm d hd)
  obtain ⟨f, hf, hfe⟩ := hs.covers e (ht.isForm e he)
  obtain rfl : f = d := eq_of_apart hs.apart hf hd (hfe.trans hed).1
  rwa [hfe.antisymm hed]

theorem Condenses.perm (hs : Condenses cs s) (ht : Condenses cs t) : s.Perm t := by
  have hnodup {s : System} (hs : Condenses cs s) : s.Nodup := by
    refine hs.apart.imp ?_
    rintro c _ hpar rfl
    exact hpar parallel_self
  rw [List.perm_ext_iff_of_nodup (hnodup hs) (hnodup ht)]
  exact fun d => ⟨hs.subset ht, ht.subset hs⟩

end Inserting

section Nesting

theorem isForm_of_fixed (hfixed : ∀ d ∈ s, d.normalize = .ok (.proper d)) : IsForm s d ↔ d ∈ s := by
  constructor
  · rintro ⟨c, hc, hcd⟩
    rw [hfixed c hc] at hcd
    rwa [← Constraint.Normal.proper.inj (Except.ok.inj hcd)]
  · exact fun hd => ⟨d, hd, hfixed d hd⟩

theorem WellFormed.condenses {V : String → Prop} (hs : s.WellFormed V) : Condenses s s := by
  have hfixed : ∀ d ∈ s, d.normalize = .ok (.proper d) := fun d hd => (hs.normal d hd).fixed
  have hforms (d : Constraint) : IsForm s d ↔ d ∈ s := isForm_of_fixed hfixed
  refine ⟨⟨fun c hc => .inr ⟨c, hfixed c hc⟩, fun d e hd he hpar _ => ?_⟩, hs.apart, ?_, ?_⟩
  · exact eq_of_apart hs.apart ((hforms d).mp hd) ((hforms e).mp he) hpar
  · exact fun d hd => (hforms d).mpr hd
  · exact fun d hd => ⟨d, (hforms d).mp hd, .refl⟩

theorem Condenses.isForm_append (hs : Condenses ds s)
    (hfixed : ∀ d ∈ s, d.normalize = .ok (.proper d)) (hd : IsForm (cs ++ s) d) :
    IsForm (cs ++ ds) d := by
  rw [System.isForm_append] at hd ⊢
  exact hd.imp_right fun hd => hs.isForm d ((isForm_of_fixed hfixed).mp hd)

theorem Condenses.compatible_append (hs : Condenses ds s)
    (hfixed : ∀ d ∈ s, d.normalize = .ok (.proper d)) :
    Compatible (cs ++ s) ↔ Compatible (cs ++ ds) := by
  constructor
  · intro h
    -- Of equalities and congruences nothing is lost by condensing.
    have hexact (d : Constraint) (hd : IsForm (cs ++ ds) d) (hr : d.relation ≠ .ge) :
        IsForm (cs ++ s) d := by
      rw [System.isForm_append] at hd ⊢
      exact hd.imp_right fun hd => (isForm_of_fixed hfixed).mpr (hs.mem_of_exact hd hr)
    refine ⟨List.forall_mem_append.mpr ⟨?_, hs.feasible⟩, fun d e hd he hpar hr => ?_⟩
    · exact fun c hc => h.feasible c (List.mem_append_left _ hc)
    · have hre : e.relation ≠ .ge := (parallel_iff.mp hpar).1 ▸ hr
      exact h.agree d e (hexact d hd hr) (hexact e he hre) hpar hr
  · intro h
    refine ⟨List.forall_mem_append.mpr ⟨?_, fun c hc => .inr ⟨c, hfixed c hc⟩⟩,
      fun d e hd he => ?_⟩
    · exact fun c hc => h.feasible c (List.mem_append_left _ hc)
    · exact h.agree d e (hs.isForm_append hfixed hd) (hs.isForm_append hfixed he)

theorem Condenses.append (hs : Condenses ds s) (hfixed : ∀ d ∈ s, d.normalize = .ok (.proper d))
    (ht : Condenses (cs ++ s) t) : Condenses (cs ++ ds) t := by
  refine ⟨(hs.compatible_append hfixed).mp ht.toCompatible, ht.apart,
    fun d hd => hs.isForm_append hfixed (ht.isForm d hd), fun d hd => ?_⟩
  rcases System.isForm_append.mp hd with hd | hd
  · exact ht.covers d (System.isForm_append.mpr (.inl hd))
  · obtain ⟨e, he, hed⟩ := hs.covers d hd
    obtain ⟨f, hf, hfe⟩ :=
      ht.covers e (System.isForm_append.mpr (.inr ((isForm_of_fixed hfixed).mpr he)))
    exact ⟨f, hf, hfe.trans hed⟩

end Nesting

end System

namespace Conjunction

open LoopAudit.System Fallible

variable {a b b' c : Conjunction} {space : Space} {cs ds : List Constraint}

structure Condenses (cs : List Constraint) (b : Conjunction) : Prop where
  of_feasible : b.isContradictory = false → System.Condenses cs b.constraints
  of_contradictory : b.isContradictory = true → ¬ Compatible cs
  cleared : b.isContradictory = true → b.constraints = []

structure SameUpToOrder (a b : Conjunction) : Prop where
  flag : a.isContradictory = b.isContradictory
  constraints : a.constraints.Perm b.constraints

theorem Condenses.same (ha : Condenses cs a) (hb : Condenses ds b) (h : ∀ c, c ∈ cs ↔ c ∈ ds) :
    SameUpToOrder a b := by
  have hsub (c : Constraint) : c ∈ cs → c ∈ ds := (h c).mp
  have hsub' (c : Constraint) : c ∈ ds → c ∈ cs := (h c).mpr
  cases hflag : a.isContradictory <;> cases hflag' : b.isContradictory
  · have hs := ha.of_feasible hflag
    have ht := (hb.of_feasible hflag').congr hs.feasible fun d => ⟨(·.mono hsub), (·.mono hsub')⟩
    exact ⟨hflag.trans hflag'.symm, hs.perm ht⟩
  · exact absurd ((ha.of_feasible hflag).toCompatible.mono hsub') (hb.of_contradictory hflag')
  · exact absurd ((hb.of_feasible hflag').toCompatible.mono hsub) (ha.of_contradictory hflag)
  · refine ⟨hflag.trans hflag'.symm, ?_⟩
    rw [ha.cleared hflag, hb.cleared hflag']

theorem Condenses.addConstraint {c : Constraint} (hb : Condenses cs b)
    (h : b.addConstraint c = .ok b') : Condenses (cs ++ [c]) b' := by
  have hleft : Compatible (cs ++ [c]) → Compatible cs :=
    fun h => h.mono fun c hc => List.mem_append_left _ hc
  obtain ⟨-, ⟨hflag, rfl⟩ | ⟨hflag, ⟨hins, rfl⟩ | ⟨s, hins, rfl⟩⟩⟩ := addConstraint_eq_ok.mp h
  · exact ⟨by simp [hflag], fun _ => mt hleft (hb.of_contradictory hflag), hb.cleared⟩
  · obtain ⟨t, hsome, -⟩ | ⟨-, hodd⟩ := insert_condenses (hb.of_feasible hflag) hins
    · cases hsome
    · exact ⟨by simp [markEmpty], fun _ => hodd, fun _ => rfl⟩
  · obtain ⟨t, hsome, hcond⟩ | ⟨hnone, -⟩ := insert_condenses (hb.of_feasible hflag) hins
    · cases hsome
      exact ⟨fun _ => hcond, by simp [hflag], by simp [hflag]⟩
    · cases hnone

theorem Condenses.addConstraints (hb : Condenses cs b) (h : b.addConstraints ds = .ok b') :
    Condenses (cs ++ ds) b' := by
  induction ds generalizing cs b with
  | nil =>
    cases h
    rwa [List.append_nil]
  | cons d ds ih =>
    obtain ⟨b₁, hd, hds⟩ := bind_eq_ok.mp h
    have hcond := ih (hb.addConstraint hd) hds
    rwa [List.append_assoc] at hcond

theorem univ_condenses : Condenses [] (univ space) :=
  ⟨fun _ => .nil, by simp [univ], fun _ => rfl⟩

theorem exists_addConstraints (hnames : ∀ c ∈ cs, ∀ x ∈ c.form.vars, x ∈ b.space.names)
    (hcs : ∀ c ∈ cs, ∃ n, c.normalize = .ok n) : ∃ b', b.addConstraints cs = .ok b' := by
  cases h : b.addConstraints cs with
  | ok b' => exact ⟨b', rfl⟩
  | error e =>
    obtain ⟨c, hc, hfault | ⟨x, -, hx, hout⟩⟩ := addConstraints_fails e h
    · obtain ⟨n, hn⟩ := hcs c hc
      cases hn.symm.trans hfault
    · exact absurd (hnames c hc x hx) hout

theorem WellFormed.exists_condenses (hb : b.WellFormed) : ∃ cs, Condenses cs b := by
  cases hflag : b.isContradictory with
  | true =>
    refine ⟨[.eq (.const 1)], by simp [hflag], fun _ h => ?_, hb.cleared⟩
    rcases h.feasible _ (List.mem_singleton.mpr rfl) with h | ⟨d, h⟩ <;> cases h
  | false => exact ⟨b.constraints, fun _ => hb.system.condenses, by simp [hflag], hb.cleared⟩

theorem Condenses.append {s : System} (hs : System.Condenses ds s)
    (hfixed : ∀ d ∈ s, d.normalize = .ok (.proper d)) (hb : Condenses (cs ++ s) b) :
    Condenses (cs ++ ds) b where
  of_feasible hflag := hs.append hfixed (hb.of_feasible hflag)
  of_contradictory hflag := mt (hs.compatible_append hfixed).mpr (hb.of_contradictory hflag)
  cleared := hb.cleared

theorem Condenses.intersect (ha : Condenses cs a) (hb : Condenses ds b) (hwf : b.WellFormed) :
    ∃ c, a.intersect b = .ok c ∧ Condenses (cs ++ ds) c := by
  have hrehome : a.rehome (a.space.align b.space) =
      .ok { a with space := a.space.align b.space } := by
    have hknown : ∀ x ∈ a.space.names, x ∈ (a.space.align b.space).names :=
      fun x hx => Space.mem_names_align.mpr (.inl hx)
    rw [rehome, Space.find?_not_contains_eq_none.mpr hknown]
  have hmoved : Condenses cs { a with space := a.space.align b.space } :=
    ⟨ha.of_feasible, ha.of_contradictory, ha.cleared⟩
  rw [Conjunction.intersect, hrehome]
  simp only [bind, Except.bind]
  cases hflag : b.isContradictory with
  | true =>
    rw [hb.cleared hflag]
    refine ⟨_, rfl, by simp [markEmpty], fun _ h => hb.of_contradictory hflag ?_, fun _ => rfl⟩
    exact h.mono fun c hc => List.mem_append_right _ hc
  | false =>
    have hnames : ∀ c ∈ b.constraints, ∀ x ∈ c.form.vars, x ∈ (a.space.align b.space).names :=
      fun c hc x hx => Space.mem_names_align.mpr (.inr ((hwf.constraint hc).form.within x hx))
    have hfixed : ∀ c ∈ b.constraints, c.normalize = .ok (.proper c) :=
      fun c hc => (hwf.constraint hc).fixed
    obtain ⟨c, hc⟩ := exists_addConstraints (b := { a with space := a.space.align b.space })
      hnames fun c hc => ⟨_, hfixed c hc⟩
    exact ⟨c, hc, .append (hb.of_feasible hflag) hfixed (hmoved.addConstraints hc)⟩

theorem ofConstraints_perm (hperm : cs.Perm ds) (ha : ofConstraints space cs = .ok a)
    (hb : ofConstraints space ds = .ok b) : SameUpToOrder a b :=
  (univ_condenses.addConstraints ha).same (univ_condenses.addConstraints hb) fun c => by
    simp [hperm.mem_iff]

theorem exists_ofConstraints (hnames : ∀ c ∈ cs, ∀ x ∈ c.form.vars, x ∈ space.names)
    (hcs : ∀ c ∈ cs, ∃ n, c.normalize = .ok n) : ∃ b, ofConstraints space cs = .ok b :=
  exists_addConstraints (b := univ space) hnames hcs

/-- Every constraint of a feasible conjunction was normalised on the way. -/
theorem ofConstraints_of_not_normalize {c : Constraint}
    (hnames : ∀ c ∈ cs, ∀ x ∈ c.form.vars, x ∈ space.names) (hc : c ∈ cs)
    (hstuck : ¬ ∃ n, c.normalize = .ok n) :
    ofConstraints space cs = .error .trap ∨
      ∃ b, ofConstraints space cs = .ok b ∧ b.isContradictory = true := by
  cases h : ofConstraints space cs with
  | error e =>
    obtain ⟨d, hd, hfault | ⟨x, -, hx, hout⟩⟩ := addConstraints_fails e h
    · exact .inl (congrArg _ (Constraint.normalize_traps e hfault))
    · exact absurd (hnames d hd x hx) hout
  | ok b =>
    refine .inr ⟨b, rfl, ?_⟩
    by_contra hflag
    have hcond := (univ_condenses.addConstraints h).of_feasible (by simpa using hflag)
    rcases hcond.feasible c (by simpa using hc) with hn | ⟨d, hn⟩
    · exact hstuck ⟨_, hn⟩
    · exact hstuck ⟨_, hn⟩

theorem Built.intersect_comm (ha : a.Built) (hb : b.Built) :
    ∃ ab ba, a.intersect b = .ok ab ∧ b.intersect a = .ok ba ∧ SameUpToOrder ab ba := by
  obtain ⟨cs, hcs⟩ := ha.wellFormed.exists_condenses
  obtain ⟨ds, hds⟩ := hb.wellFormed.exists_condenses
  obtain ⟨ab, hab, hcond⟩ := hcs.intersect hds hb.wellFormed
  obtain ⟨ba, hba, hcond'⟩ := hds.intersect hcs ha.wellFormed
  exact ⟨ab, ba, hab, hba, hcond.same hcond' fun c => List.perm_append_comm.mem_iff⟩

theorem Built.intersect_assoc (ha : a.Built) (hb : b.Built) (hc : c.Built) :
    ∃ bc abc ab abc', b.intersect c = .ok bc ∧ a.intersect bc = .ok abc ∧
      a.intersect b = .ok ab ∧ ab.intersect c = .ok abc' ∧ SameUpToOrder abc abc' := by
  obtain ⟨cs, hcs⟩ := ha.wellFormed.exists_condenses
  obtain ⟨ds, hds⟩ := hb.wellFormed.exists_condenses
  obtain ⟨es, hes⟩ := hc.wellFormed.exists_condenses
  obtain ⟨bc, hbc, hcond⟩ := hds.intersect hes hc.wellFormed
  obtain ⟨abc, habc, hcond⟩ := hcs.intersect hcond (hb.intersect hc hbc).wellFormed
  obtain ⟨ab, hab, hcond'⟩ := hcs.intersect hds hb.wellFormed
  obtain ⟨abc', habc', hcond'⟩ := hcond'.intersect hes hc.wellFormed
  refine ⟨bc, abc, ab, abc', hbc, habc, hab, habc', hcond.same hcond' fun c => ?_⟩
  rw [List.append_assoc]

/-- Conjunctions are built alike in every order, as long as no constraint is stuck: constraints over
the names of a space give the same flag and the same constraints, up to order, in any order. A stuck
constraint traps unless a contradiction is found before it. Intersection is commutative and
associative in this sense, over any spaces. -/
theorem order_irrelevant (space : Space) (cs ds : List Constraint) (a b c : Conjunction) :
    ((∀ r ∈ cs, r.Proper ∧ r.InWord ∧ ∀ x ∈ r.form.vars, x ∈ space.names) → cs.Perm ds →
      ((∀ r ∈ cs, ¬ r.Stuck) → ∃ s t, ofConstraints space cs = .ok s ∧
        ofConstraints space ds = .ok t ∧ SameUpToOrder s t) ∧
      (∀ s t, ofConstraints space cs = .ok s → ofConstraints space ds = .ok t →
        SameUpToOrder s t) ∧
      ((∃ r ∈ cs, r.Stuck) → ofConstraints space cs = .error .trap ∨
        ∃ s, ofConstraints space cs = .ok s ∧ s.isContradictory = true)) ∧
    (a.Built → b.Built →
      ∃ ab ba, a.intersect b = .ok ab ∧ b.intersect a = .ok ba ∧ SameUpToOrder ab ba) ∧
    (a.Built → b.Built → c.Built →
      ∃ bc abc ab abc', b.intersect c = .ok bc ∧ a.intersect bc = .ok abc ∧
        a.intersect b = .ok ab ∧ ab.intersect c = .ok abc' ∧ SameUpToOrder abc abc') := by
  refine ⟨fun hcs hperm => ?_, Built.intersect_comm, Built.intersect_assoc⟩
  have hnormal (r : Constraint) (hr : r ∈ cs) : (∃ n, r.normalize = .ok n) ↔ ¬ r.Stuck :=
    Constraint.exists_normalize_iff (hcs r hr).1 (hcs r hr).2.1
  have hnames : ∀ r ∈ cs, ∀ x ∈ r.form.vars, x ∈ space.names := fun r hr => (hcs r hr).2.2
  refine ⟨fun hfree => ?_, fun s t => ofConstraints_perm hperm, ?_⟩
  · have hanswers : ∀ r ∈ cs, ∃ n, r.normalize = .ok n :=
      fun r hr => (hnormal r hr).mpr (hfree r hr)
    obtain ⟨s, hs⟩ := exists_ofConstraints hnames hanswers
    obtain ⟨t, ht⟩ := exists_ofConstraints (fun r hr => hnames r (hperm.mem_iff.mpr hr))
      fun r hr => hanswers r (hperm.mem_iff.mpr hr)
    exact ⟨s, t, hs, ht, ofConstraints_perm hperm hs ht⟩
  · rintro ⟨r, hr, hstuck⟩
    exact ofConstraints_of_not_normalize hnames hr fun hn => (hnormal r hr).mp hn hstuck

def parity (k : Int) : Conjunction := ⟨⟨[], ["i"]⟩, [⟨.mod 2, ⟨[("i", 1)], k⟩⟩], false⟩

theorem parity_built : (parity 0).Built ∧ (parity 1).Built :=
  ⟨.remade (by decide) (by decide) rfl, .remade (by decide) (by decide) rfl⟩

theorem parity_reordered :
    (∃ b d, ofConstraints ⟨[], ["i"]⟩
        [.ge ⟨[("i", 1)], -2⟩, ⟨.mod 2, ⟨[("i", 1)], 0⟩⟩, .ge ⟨[("i", 2)], -7⟩] = .ok b ∧
      ofConstraints ⟨[], ["i"]⟩
        [⟨.mod 2, ⟨[("i", 1)], 0⟩⟩, .ge ⟨[("i", 2)], -7⟩, .ge ⟨[("i", 1)], -2⟩] = .ok d ∧
      b.constraints = [.ge ⟨[("i", 1)], -4⟩, ⟨.mod 2, ⟨[("i", 1)], 0⟩⟩] ∧
      d.constraints = [⟨.mod 2, ⟨[("i", 1)], 0⟩⟩, .ge ⟨[("i", 1)], -4⟩] ∧ SameUpToOrder b d) ∧
    ∃ bc abc ab abc', (parity 1).intersect (parity 1) = .ok bc ∧
      (parity 0).intersect bc = .ok abc ∧ (parity 0).intersect (parity 1) = .ok ab ∧
      ab.intersect (parity 1) = .ok abc' ∧ abc.isContradictory = true ∧ SameUpToOrder abc abc' := by
  obtain ⟨hperm, -, hassoc⟩ := order_irrelevant ⟨[], ["i"]⟩
    [.ge ⟨[("i", 1)], -2⟩, ⟨.mod 2, ⟨[("i", 1)], 0⟩⟩, .ge ⟨[("i", 2)], -7⟩]
    [⟨.mod 2, ⟨[("i", 1)], 0⟩⟩, .ge ⟨[("i", 2)], -7⟩, .ge ⟨[("i", 1)], -2⟩]
    (parity 0) (parity 1) (parity 1)
  obtain ⟨heven, hodd⟩ := parity_built
  constructor
  · obtain ⟨hanswers, -, -⟩ := hperm (by decide) (by decide)
    obtain ⟨b, d, hb, hd, hsame⟩ := hanswers (by decide)
    refine ⟨b, d, hb, hd, ?_, ?_, hsame⟩
    · cases hb
      rfl
    · cases hd
      rfl
  · obtain ⟨bc, abc, ab, abc', hbc, habc, hab, habc', hsame⟩ := hassoc heven hodd hodd
    refine ⟨bc, abc, ab, abc', hbc, habc, hab, habc', ?_, hsame⟩
    cases hbc
    cases habc
    rfl

/-- A contradiction hides a constraint that cannot be normalised, but only from behind. -/
theorem ofConstraints_least_row :
    ofConstraints ⟨[], ["x", "y"]⟩ [.eq (.const 1), .ge ⟨[("x", Word.least), ("y", 5)], 0⟩] =
      .ok (.empty ⟨[], ["x", "y"]⟩) ∧
    ofConstraints ⟨[], ["x", "y"]⟩ [.ge ⟨[("x", Word.least), ("y", 5)], 0⟩, .eq (.const 1)] =
      .error .trap :=
  ⟨rfl, rfl⟩

end Conjunction

end LoopAudit
