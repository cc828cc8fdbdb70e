import LoopAudit.System
import LoopAudit.Proofs.NormalForm

/-! Systems as conjunctions. Inserting constraints keeps a system in normal form and asks for all
of them: merging parallel constraints and noticing contradictions lose no integer point and add
none. -/

namespace LoopAudit.System

open Fallible

variable {V W : String → Prop} {P Q : (String → Int) → Prop} {s t : System} {c d : Constraint}
  {e : Affine} {x : String} {ρ σ : String → Int}

structure WellFormed (V : String → Prop) (s : System) : Prop where
  normal : ∀ c ∈ s, c.IsNormal V
  apart : s.Pairwise fun c d => ¬ c.parallel d

theorem WellFormed.nil : WellFormed V [] := ⟨nofun, .nil⟩

theorem WellFormed.each (h : s.WellFormed V) : ∀ c ∈ s, c.WellFormed V :=
  fun c hc => (h.normal c hc).toWellFormed

theorem WellFormed.mono (h : s.WellFormed V) (hVW : ∀ x, V x → W x) : s.WellFormed W :=
  ⟨fun c hc => (h.normal c hc).mono hVW, h.apart⟩

theorem WellFormed.holds_congr (h : s.WellFormed V) (hρ : ∀ x, V x → ρ x = σ x) :
    s.Holds ρ ↔ s.Holds σ := by
  refine forall₂_congr fun c hc => ?_
  rw [Constraint.Holds, Constraint.Holds, (h.normal c hc).form.eval_congr hρ]

/-- The systems are well formed, and together they hold exactly where `P` does. -/
structure Describes (V : String → Prop) (P : (String → Int) → Prop) (ts : List System) : Prop where
  wellFormed : ∀ t ∈ ts, t.WellFormed V
  holds_iff : ∀ ρ, (∃ t ∈ ts, t.Holds ρ) ↔ P ρ

namespace Describes

variable {ts us : List System}

theorem nil (h : ∀ ρ, ¬ P ρ) : Describes V P [] :=
  ⟨nofun, fun ρ => by simpa using h ρ⟩

theorem single (ht : t.WellFormed V) (h : ∀ ρ, t.Holds ρ ↔ P ρ) : Describes V P [t] :=
  ⟨by simpa using ht, fun ρ => by simpa using h ρ⟩

theorem append (ht : Describes V P ts) (hu : Describes V Q us) :
    Describes V (fun ρ => P ρ ∨ Q ρ) (ts ++ us) := by
  refine ⟨fun t h => (List.mem_append.mp h).elim (ht.wellFormed t) (hu.wellFormed t), fun ρ => ?_⟩
  rw [← ht.holds_iff, ← hu.holds_iff]
  simp only [List.mem_append, or_and_right, exists_or]

theorem congr (h : Describes V P ts) (hPQ : ∀ ρ, P ρ ↔ Q ρ) : Describes V Q ts :=
  ⟨h.wellFormed, fun ρ => (h.holds_iff ρ).trans (hPQ ρ)⟩

theorem mono (h : Describes V P ts) (hVW : ∀ x, V x → W x) : Describes W P ts :=
  ⟨fun t ht => (h.wellFormed t ht).mono hVW, h.holds_iff⟩

theorem not_of_none (h : Describes V P (none : Option System).toList) : ¬ P ρ := by
  rw [← h.holds_iff]
  simp

theorem of_some (h : Describes V P (some t).toList) : t.WellFormed V ∧ ∀ ρ, t.Holds ρ ↔ P ρ := by
  refine ⟨h.wellFormed t (List.mem_singleton.mpr rfl), fun ρ => ?_⟩
  rw [← h.holds_iff]
  simp

theorem foldlM {α : Type} {step : List System → α → Except SetError (List System)}
    {R : α → (String → Int) → Prop} {l : List α}
    (hstep : ∀ P ts us a, a ∈ l → Describes V P ts → step ts a = .ok us →
      Describes V (fun ρ => P ρ ∨ R a ρ) us)
    (hts : Describes V P ts) (h : l.foldlM step ts = .ok us) :
    Describes V (fun ρ => P ρ ∨ ∃ a ∈ l, R a ρ) us := by
  induction l generalizing P ts with
  | nil =>
    cases h
    exact hts.congr fun ρ => by simp
  | cons a l ih =>
    obtain ⟨ts', hts', h⟩ := bind_eq_ok.mp h
    have ha := hstep P ts ts' a (List.mem_cons_self ..) hts hts'
    refine (ih (fun P ts us b hb => hstep P ts us b (List.mem_cons_of_mem _ hb)) ha h).congr
      fun ρ => ?_
    rw [List.exists_mem_cons_iff, or_assoc]

end Describes

theorem parallel_iff :
    c.parallel d = true ↔ c.relation = d.relation ∧ c.form.terms = d.form.terms := by
  simp [Constraint.parallel]

theorem parallel_self : c.parallel c = true := parallel_iff.mpr ⟨rfl, rfl⟩

theorem parallel_symm (h : c.parallel d = true) : d.parallel c = true := by
  obtain ⟨hrel, hterms⟩ := parallel_iff.mp h
  exact parallel_iff.mpr ⟨hrel.symm, hterms.symm⟩

theorem parallel_trans {b : Constraint} (h : b.parallel c = true) (h' : c.parallel d = true) :
    b.parallel d = true := by
  obtain ⟨hrel, hterms⟩ := parallel_iff.mp h
  obtain ⟨hrel', hterms'⟩ := parallel_iff.mp h'
  exact parallel_iff.mpr ⟨hrel.trans hrel', hterms.trans hterms'⟩

theorem eval_of_parallel (h : c.parallel d = true) :
    c.form.eval ρ = d.form.eval ρ + (c.form.constant - d.form.constant) := by
  have hc : c.form.eval ρ = Affine.eval ⟨c.form.terms, 0⟩ ρ + c.form.constant :=
    Affine.eval_eq_add_constant
  have hd : d.form.eval ρ = Affine.eval ⟨d.form.terms, 0⟩ ρ + d.form.constant :=
    Affine.eval_eq_add_constant
  rw [hc, hd, (parallel_iff.mp h).2]
  ring

theorem not_holds_of_parallel (hc : c.IsNormal V) (hd : d.IsNormal V) (h : d.parallel c = true)
    (hr : c.relation ≠ .ge) (hne : d.form.constant ≠ c.form.constant) :
    ¬ (c.Holds ρ ∧ d.Holds ρ) := by
  rintro ⟨hcρ, hdρ⟩
  have hsub := eval_of_parallel (ρ := ρ) h
  have hrel := (parallel_iff.mp h).1
  rw [Constraint.Holds] at hcρ hdρ
  rw [hrel] at hdρ
  cases hm : c.relation with
  | ge => exact hr hm
  | eq =>
    rw [hm] at hcρ hdρ
    change c.form.eval ρ = 0 at hcρ
    change d.form.eval ρ = 0 at hdρ
    rw [hcρ, hdρ] at hsub
    exact hne (by linarith)
  | mod m =>
    rw [hm] at hcρ hdρ
    change m ∣ c.form.eval ρ at hcρ
    change m ∣ d.form.eval ρ at hdρ
    obtain ⟨-, hc0, hcm⟩ := hc.mod_range hm
    obtain ⟨-, hd0, hdm⟩ := hd.mod_range (hrel.trans hm)
    have hdvd : m ∣ d.form.constant - c.form.constant := by
      rw [hsub] at hdρ
      exact (dvd_add_right hcρ).mp hdρ
    have hzero := Int.eq_zero_of_abs_lt_dvd hdvd (abs_sub_lt_of_nonneg_of_lt hd0 hdm hc0 hcm)
    exact hne (sub_eq_zero.mp hzero)

theorem merge_of_not_parallel (h : ¬ d.parallel c = true) :
    merge c (d :: s) = (s.merge c).map (d :: ·) := by
  rw [merge, if_neg h]

theorem merge_of_parallel (h : d.parallel c = true) :
    (c.relation ≠ .ge ∧ d.form.constant ≠ c.form.constant ∧ merge c (d :: s) = none) ∨
    ∃ b, (b = c ∨ b = d) ∧ (∀ ρ, b.Holds ρ ↔ c.Holds ρ ∧ d.Holds ρ) ∧
      merge c (d :: s) = some (b :: s) := by
  obtain ⟨hrel, -⟩ := parallel_iff.mp h
  have hsub (ρ : String → Int) := eval_of_parallel (ρ := ρ) h
  have hsame (hconst : d.form.constant = c.form.constant) (ρ : String → Int) :
      d.Holds ρ ↔ c.Holds ρ ∧ d.Holds ρ := by
    have heval : d.form.eval ρ = c.form.eval ρ := by rw [hsub, hconst, sub_self, add_zero]
    rw [Constraint.Holds, Constraint.Holds, hrel, heval, and_self]
  have hge (hr : c.relation = .ge) (ρ : String → Int) :
      (c.Holds ρ ↔ 0 ≤ c.form.eval ρ) ∧ (d.Holds ρ ↔ 0 ≤ d.form.eval ρ) := by
    rw [Constraint.Holds, Constraint.Holds, hrel, hr]
    exact ⟨Iff.rfl, Iff.rfl⟩
  rw [merge, if_pos h]
  cases hr : c.relation with
  | ge =>
    refine .inr ⟨_, ?_, fun ρ => ?_, rfl⟩
    · split
      · exact .inl rfl
      · exact .inr rfl
    · obtain ⟨hc, hd⟩ := hge hr ρ
      have hρ := hsub ρ
      split <;> rw [hc, hd] <;> omega
  | eq =>
    by_cases hconst : d.form.constant = c.form.constant
    · exact .inr ⟨d, .inr rfl, hsame hconst, if_pos hconst⟩
    · exact .inl ⟨by simp, hconst, if_neg hconst⟩
  | mod m =>
    by_cases hconst : d.form.constant = c.form.constant
    · exact .inr ⟨d, .inr rfl, hsame hconst, if_pos hconst⟩
    · exact .inl ⟨by simp, hconst, if_neg hconst⟩

theorem merge_cons_eq_some {a : Constraint} (h : merge c (a :: s) = some t) :
    (a.parallel c = true ∧ ∃ b, (b = c ∨ b = a) ∧ t = b :: s) ∨
      ¬ a.parallel c = true ∧ ∃ u, s.merge c = some u ∧ t = a :: u := by
  by_cases hpar : a.parallel c = true
  · rcases merge_of_parallel (s := s) hpar with ⟨-, -, hnone⟩ | ⟨b, hb, -, hsome⟩
    · rw [hnone] at h
      cases h
    · rw [hsome] at h
      exact .inl ⟨hpar, b, hb, (Option.some.inj h).symm⟩
  · rw [merge_of_not_parallel hpar] at h
    obtain ⟨u, hu, rfl⟩ := Option.map_eq_some_iff.mp h
    exact .inr ⟨hpar, u, hu, rfl⟩

theorem mem_merge (h : s.merge c = some t) (hd : d ∈ t) : d = c ∨ d ∈ s := by
  induction s generalizing t with
  | nil =>
    cases h
    exact .inl (List.mem_singleton.mp hd)
  | cons a s ih =>
    obtain ⟨-, b, hb, rfl⟩ | ⟨-, u, hu, rfl⟩ := merge_cons_eq_some h
    · rcases List.mem_cons.mp hd with rfl | hd
      · exact hb.imp_right fun h => List.mem_cons.mpr (.inl h)
      · exact .inr (List.mem_cons_of_mem _ hd)
    · rcases List.mem_cons.mp hd with rfl | hd
      · exact .inr (List.mem_cons_self ..)
      · exact (ih hu hd).imp_right (List.mem_cons_of_mem _)

theorem exists_parallel_of_merge (h : s.merge c = some t) : ∃ d ∈ t, d.parallel c = true := by
  induction s generalizing t with
  | nil =>
    cases h
    exact ⟨c, List.mem_singleton.mpr rfl, parallel_self⟩
  | cons a s ih =>
    obtain ⟨hpar, b, hb, rfl⟩ | ⟨-, u, hu, rfl⟩ := merge_cons_eq_some h
    · refine ⟨b, List.mem_cons_self .., ?_⟩
      rcases hb with rfl | rfl
      · exact parallel_self
      · exact hpar
    · obtain ⟨d, hd, hdc⟩ := ih hu
      exact ⟨d, List.mem_cons_of_mem _ hd, hdc⟩

theorem merge_apart (hs : s.Pairwise fun c d => ¬ c.parallel d) (h : s.merge c = some t) :
    t.Pairwise fun c d => ¬ c.parallel d := by
  induction s generalizing t with
  | nil =>
    cases h
    exact List.pairwise_singleton ..
  | cons a s ih =>
    obtain ⟨ha, hs⟩ := List.pairwise_cons.mp hs
    obtain ⟨hpar, b, hb, rfl⟩ | ⟨hpar, u, hu, rfl⟩ := merge_cons_eq_some h
    · -- The kept constraint is parallel to the one it replaces, so it is apart from the rest.
      have hba : b.relation = a.relation ∧ b.form.terms = a.form.terms := by
        obtain ⟨hr, hf⟩ := parallel_iff.mp hpar
        rcases hb with rfl | rfl
        · exact ⟨hr.symm, hf.symm⟩
        · exact ⟨rfl, rfl⟩
      refine List.pairwise_cons.mpr ⟨fun d hd hbd => ha d hd ?_, hs⟩
      rw [parallel_iff] at hbd ⊢
      rwa [← hba.1, ← hba.2]
    · refine List.pairwise_cons.mpr ⟨fun d hd => ?_, ih hs hu⟩
      rcases mem_merge hu hd with rfl | hd
      · exact hpar
      · exact ha d hd

theorem merge_wellFormed (hs : s.WellFormed V) (hc : c.IsNormal V) (h : s.merge c = some t) :
    t.WellFormed V := by
  refine ⟨fun d hd => ?_, merge_apart hs.apart h⟩
  rcases mem_merge h hd with rfl | hd
  · exact hc
  · exact hs.normal d hd

theorem merge_holds_iff (hs : s.WellFormed V) (hc : c.IsNormal V) :
    (∃ t, s.merge c = some t ∧ t.Holds ρ) ↔ c.Holds ρ ∧ s.Holds ρ := by
  have hnormal := hs.normal
  clear hs
  induction s with
  | nil => simp [merge, Holds]
  | cons a s ih =>
    obtain ⟨ha, hs⟩ := List.forall_mem_cons.mp hnormal
    have hcons (b : Constraint) (u : System) : Holds (b :: u) ρ ↔ b.Holds ρ ∧ u.Holds ρ :=
      List.forall_mem_cons
    by_cases hpar : a.parallel c = true
    · rcases merge_of_parallel (s := s) hpar with ⟨hr, hne, hnone⟩ | ⟨b, -, hb, hsome⟩
      · have hexcl := not_holds_of_parallel (ρ := ρ) hc ha hpar hr hne
        rw [hnone, hcons]
        constructor
        · rintro ⟨t, ht, -⟩
          cases ht
        · rintro ⟨hcρ, haρ, -⟩
          exact absurd ⟨hcρ, haρ⟩ hexcl
      · simp only [hsome, Option.some.injEq, exists_eq_left', hcons, hb, and_assoc]
    · simp only [merge_of_not_parallel hpar, Option.map_eq_some_iff, exists_exists_and_eq_and,
        hcons]
      constructor
      · rintro ⟨u, hu, haρ, huρ⟩
        obtain ⟨hcρ, hsρ⟩ := (ih hs).mp ⟨u, hu, huρ⟩
        exact ⟨hcρ, haρ, hsρ⟩
      · rintro ⟨hcρ, haρ, hsρ⟩
        obtain ⟨u, hu, huρ⟩ := (ih hs).mpr ⟨hcρ, hsρ⟩
        exact ⟨u, hu, haρ, huρ⟩

theorem insert_eq_ok {o : Option System} (h : s.insert c = .ok o) :
    (c.normalize = .ok .trivial ∧ o = some s) ∨ (c.normalize = .ok .infeasible ∧ o = none) ∨
      ∃ d, c.normalize = .ok (.proper d) ∧ o = s.merge d := by
  obtain ⟨n, hn, h⟩ := bind_eq_ok.mp h
  cases n with
  | trivial => exact .inl ⟨hn, (Except.ok.inj h).symm⟩
  | infeasible => exact .inr (.inl ⟨hn, (Except.ok.inj h).symm⟩)
  | proper d => exact .inr (.inr ⟨d, hn, (Except.ok.inj h).symm⟩)

theorem insert_eq_error {fault : SetError} :
    s.insert c = .error fault ↔ c.normalize = .error fault := by
  rw [insert, bind_eq_error]
  refine or_iff_left ?_
  rintro ⟨n, -, h⟩
  cases n <;> cases h

theorem mem_insert (h : s.insert c = .ok (some t)) (hd : d ∈ t) :
    c.normalize = .ok (.proper d) ∨ d ∈ s := by
  obtain ⟨-, ht⟩ | ⟨-, ht⟩ | ⟨b, hb, ht⟩ := insert_eq_ok h
  · cases ht
    exact .inr hd
  · cases ht
  · rcases mem_merge ht.symm hd with rfl | hd
    · exact .inl hb
    · exact .inr hd

theorem insert_wellFormed (hs : s.WellFormed V) (hc : c.WellFormed V)
    (h : s.insert c = .ok (some t)) : t.WellFormed V := by
  obtain ⟨-, ht⟩ | ⟨-, ht⟩ | ⟨b, hb, ht⟩ := insert_eq_ok h
  · cases ht
    exact hs
  · cases ht
  · exact merge_wellFormed hs (Constraint.normalize_eq_proper hc hb).1 ht.symm

theorem insert_holds_iff {o : Option System} (hs : s.WellFormed V) (hc : c.WellFormed V)
    (h : s.insert c = .ok o) : (∃ t, o = some t ∧ t.Holds ρ) ↔ c.Holds ρ ∧ s.Holds ρ := by
  obtain ⟨hn, rfl⟩ | ⟨hn, rfl⟩ | ⟨b, hb, rfl⟩ := insert_eq_ok h
  · have hspec : ∀ ρ, c.Holds ρ := Constraint.normalize_spec hc hn
    simpa using fun _ => hspec ρ
  · have hspec : ∀ ρ, ¬ c.Holds ρ := Constraint.normalize_spec hc hn
    simpa using fun h => absurd h (hspec ρ)
  · obtain ⟨hnormal, hiff⟩ := Constraint.normalize_eq_proper hc hb
    rw [← hiff ρ]
    exact merge_holds_iff hs hnormal

theorem exists_eq_of_insert (he : e.Over V) (hx : x ∈ e.vars)
    (h : s.insert (.eq e) = .ok (some t)) : ∃ d ∈ t, d.relation = .eq ∧ x ∈ d.form.vars := by
  have hne : e.terms ≠ [] := by
    rintro hnil
    simp [Affine.vars, hnil] at hx
  obtain ⟨hn, -⟩ | ⟨-, ht⟩ | ⟨b, hb, ht⟩ := insert_eq_ok h
  · rw [Constraint.normalize_eq_of_terms_ne_nil hne] at hn
    obtain ⟨-, ⟨-, hd⟩ | ⟨-, d, -, -, hd⟩⟩ := Constraint.normalizeEq_cases hn <;> cases hd
  · cases ht
  · obtain ⟨d, hd, hpar⟩ := exists_parallel_of_merge ht.symm
    obtain ⟨hr, hvars⟩ := Constraint.normalize_vars hb (.eq he) (by simp [Constraint.eq])
    obtain ⟨hrel, hterms⟩ := parallel_iff.mp hpar
    refine ⟨d, hd, hrel.trans hr, ?_⟩
    have hdb : d.form.vars = b.form.vars := congrArg (List.map Prod.fst) hterms
    rw [hdb, hvars]
    exact hx

section InsertEach

variable {α : Type} {f : α → Except SetError Constraint} {items : List α} {o : Option System}

theorem insertEach_cons {a : α} :
    insertEach f s (a :: items) = .ok o ↔
      ∃ c, f a = .ok c ∧ ((s.insert c = .ok none ∧ o = none) ∨
        ∃ t, s.insert c = .ok (some t) ∧ insertEach f t items = .ok o) := by
  simp only [insertEach, bind_eq_ok]
  refine exists_congr fun c => and_congr_right fun _ => ?_
  rw [Option.exists]
  simp [eq_comm]

theorem insertEach_wellFormed (hs : s.WellFormed V)
    (hf : ∀ a ∈ items, ∀ c, f a = .ok c → c.WellFormed V) (h : insertEach f s items = .ok o) :
    ∀ t, o = some t → t.WellFormed V := by
  induction items generalizing s with
  | nil =>
    cases h
    simpa using hs
  | cons a items ih =>
    obtain ⟨hfa, hf⟩ := List.forall_mem_cons.mp hf
    obtain ⟨c, hc, ⟨-, rfl⟩ | ⟨t, ht, h⟩⟩ := insertEach_cons.mp h
    · nofun
    · exact ih (insert_wellFormed hs (hfa c hc) ht) hf h

theorem insertEach_holds_iff (hs : s.WellFormed V)
    (hf : ∀ a ∈ items, ∀ c, f a = .ok c → c.WellFormed V) (h : insertEach f s items = .ok o)
    {P : α → Prop} (hP : ∀ a ∈ items, ∀ c, f a = .ok c → (c.Holds ρ ↔ P a)) :
    (∃ t, o = some t ∧ t.Holds ρ) ↔ s.Holds ρ ∧ ∀ a ∈ items, P a := by
  induction items generalizing s with
  | nil =>
    cases h
    simp
  | cons a items ih =>
    obtain ⟨hfa, hf⟩ := List.forall_mem_cons.mp hf
    obtain ⟨hPa, hP⟩ := List.forall_mem_cons.mp hP
    obtain ⟨c, hc, hins⟩ := insertEach_cons.mp h
    rw [List.forall_mem_cons]
    obtain ⟨hnone, rfl⟩ | ⟨t, ht, h⟩ := hins
    · have hiff := insert_holds_iff (ρ := ρ) hs (hfa c hc) hnone
      rw [hPa c hc] at hiff
      simp only [reduceCtorEq, false_and, exists_false, false_iff, not_and] at hiff ⊢
      exact fun hsρ hPa => absurd hsρ (hiff hPa)
    · have hiff := insert_holds_iff (ρ := ρ) hs (hfa c hc) ht
      rw [hPa c hc] at hiff
      simp only [Option.some.injEq, exists_eq_left'] at hiff
      rw [ih (insert_wellFormed hs (hfa c hc) ht) hf h hP, hiff, and_assoc, and_left_comm]

theorem mem_insertEach (h : insertEach f s items = .ok (some t)) (hd : d ∈ t) :
    (∃ a ∈ items, ∃ c, f a = .ok c ∧ c.normalize = .ok (.proper d)) ∨ d ∈ s := by
  induction items generalizing s with
  | nil =>
    cases h
    exact .inr hd
  | cons a items ih =>
    obtain ⟨c, hc, ⟨-, h⟩ | ⟨u, hu, h⟩⟩ := insertEach_cons.mp h
    · cases h
    · rcases ih h with ⟨b, hb, hfb⟩ | hd
      · exact .inl ⟨b, List.mem_cons_of_mem _ hb, hfb⟩
      · exact (mem_insert hu hd).imp_left fun hn => ⟨a, List.mem_cons_self .., c, hc, hn⟩

theorem insert_of_insertEach_concat {a : α} (h : insertEach f s (items ++ [a]) = .ok (some t)) :
    ∃ (u : System) (c : Constraint), f a = .ok c ∧ u.insert c = .ok (some t) := by
  induction items generalizing s with
  | nil =>
    obtain ⟨c, hc, ⟨-, h⟩ | ⟨u, hu, h⟩⟩ := insertEach_cons.mp h
    · cases h
    · cases h
      exact ⟨s, c, hc, hu⟩
  | cons b items ih =>
    obtain ⟨c, -, ⟨-, h⟩ | ⟨u, -, h⟩⟩ := insertEach_cons.mp h
    · cases h
    · exact ih h

theorem ofList?_describes {cs : List Constraint} (hcs : ∀ c ∈ cs, c.WellFormed V)
    (h : ofList? cs = .ok o) : Describes V (fun ρ => ∀ c ∈ cs, c.Holds ρ) o.toList := by
  have hf : ∀ a ∈ cs, ∀ c, (Except.ok a : Except SetError Constraint) = .ok c → c.WellFormed V := by
    rintro a ha c ⟨⟩
    exact hcs a ha
  refine ⟨fun t ht => ?_, fun ρ => ?_⟩
  · exact insertEach_wellFormed .nil hf h t (Option.mem_toList.mp ht)
  · simp only [Option.mem_toList]
    rw [insertEach_holds_iff .nil hf h (P := fun c => c.Holds ρ)]
    · exact and_iff_right nofun
    · rintro a - c ⟨⟩
      exact Iff.rfl

theorem mem_ofList? {cs : List Constraint} (h : ofList? cs = .ok (some t)) (hd : d ∈ t) :
    ∃ c ∈ cs, c.normalize = .ok (.proper d) := by
  obtain ⟨a, ha, c, hac, hc⟩ | hd := mem_insertEach h hd
  · cases hac
    exact ⟨a, ha, hc⟩
  · cases hd

end InsertEach

end LoopAudit.System
