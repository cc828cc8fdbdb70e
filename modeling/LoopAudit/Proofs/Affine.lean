import Mathlib.Data.List.Nodup
import Mathlib.Data.String.Basic
import Mathlib.Logic.Function.Basic
import Mathlib.Tactic.Linarith
import Mathlib.Tactic.Ring
import LoopAudit.Affine
import LoopAudit.Proofs.Fallible

/-! Arithmetic of affine forms. Every operation that answers keeps forms canonical and within their
names, and takes the value of the integer operation at every assignment. -/

namespace LoopAudit.Affine

open Function Fallible

variable {V W : String → Prop} {e f g : Affine} {x y : String} {c k v : Int}
  {ts : List (String × Int)} {ρ σ : String → Int}

@[simp] theorem eval_nil : eval ⟨[], k⟩ ρ = k := rfl

@[simp] theorem eval_cons : eval ⟨(x, c) :: ts, k⟩ ρ = c * ρ x + eval ⟨ts, k⟩ ρ := rfl

@[simp] theorem coeff_nil : coeff ⟨[], k⟩ x = 0 := rfl

theorem coeff_cons : coeff ⟨(y, c) :: ts, k⟩ x = if x = y then c else coeff ⟨ts, k⟩ x := by
  by_cases h : x = y
  · simp [coeff, h]
  · simp [coeff, List.lookup_cons, h, beq_eq_false_iff_ne.mpr h]

theorem eval_eq_add_constant : eval ⟨ts, k⟩ ρ = eval ⟨ts, 0⟩ ρ + k := by
  induction ts with
  | nil => simp
  | cons t ts ih => rw [eval_cons, eval_cons, ih, add_assoc]

theorem eval_append {us : List (String × Int)} :
    eval ⟨ts ++ us, k⟩ ρ = eval ⟨ts, 0⟩ ρ + eval ⟨us, k⟩ ρ := by
  induction ts with
  | nil => simp
  | cons t ts ih => rw [List.cons_append, eval_cons, eval_cons, ih, add_assoc]

theorem eval_of_isConstant (h : e.isConstant = true) : e.eval ρ = e.constant := by
  rw [isConstant, List.isEmpty_iff] at h
  rw [eval, h]
  rfl

theorem eval_congr (h : ∀ x ∈ e.vars, ρ x = σ x) : e.eval ρ = e.eval σ := by
  obtain ⟨ts, k⟩ := e
  induction ts with
  | nil => rfl
  | cons t ts ih =>
    have ht : ρ t.1 = σ t.1 := h t.1 (List.mem_cons_self ..)
    rw [eval_cons, eval_cons, ht, ih fun x hx => h x (List.mem_cons_of_mem _ hx)]

theorem coeff_eq_zero (h : x ∉ e.vars) : e.coeff x = 0 := by
  obtain ⟨ts, k⟩ := e
  induction ts with
  | nil => rfl
  | cons t ts ih =>
    obtain ⟨hne, htail⟩ := not_or.mp (mt List.mem_cons.mpr h)
    rw [coeff_cons, if_neg hne]
    exact ih htail

theorem coeff_of_mem (h : e.vars.Nodup) {t : String × Int} (ht : t ∈ e.terms) :
    e.coeff t.1 = t.2 := by
  obtain ⟨ts, k⟩ := e
  induction ts with
  | nil => cases ht
  | cons s ts ih =>
    obtain ⟨hs, hts⟩ := List.nodup_cons.mp h
    rw [coeff_cons]
    rcases List.mem_cons.mp ht with rfl | ht
    · exact if_pos rfl
    · have hne : t.1 ≠ s.1 := fun h => hs (h ▸ List.mem_map_of_mem ht)
      rw [if_neg hne]
      exact ih hts ht

theorem mentions_iff : e.mentions x = true ↔ x ∈ e.vars := by
  simp [mentions, vars]

theorem eval_update (h : e.vars.Nodup) :
    e.eval (update ρ x v) = e.eval ρ + e.coeff x * (v - ρ x) := by
  obtain ⟨ts, k⟩ := e
  induction ts with
  | nil => simp
  | cons t ts ih =>
    obtain ⟨y, c⟩ := t
    obtain ⟨hy, hts⟩ := List.nodup_cons.mp h
    rw [eval_cons, eval_cons, ih hts, coeff_cons]
    by_cases hxy : x = y
    · subst hxy
      rw [update_self, if_pos rfl, coeff_eq_zero (e := ⟨ts, k⟩) hy]
      ring
    · rw [update_of_ne (Ne.symm hxy), if_neg hxy]
      ring

namespace Canonical

theorem nodup (h : e.Canonical) : e.vars.Nodup := h.1.imp fun h => ne_of_lt h

theorem mem_vars_iff (h : e.Canonical) : x ∈ e.vars ↔ e.coeff x ≠ 0 := by
  refine ⟨fun hx => ?_, fun hx => by_contra fun hn => hx (coeff_eq_zero hn)⟩
  obtain ⟨ts, k⟩ := e
  induction ts with
  | nil => cases hx
  | cons t ts ih =>
    rw [coeff_cons]
    split
    · exact h.2 t (List.mem_cons_self ..)
    · next hne =>
      exact ih ⟨(List.pairwise_cons.mp h.1).2, fun s hs => h.2 s (List.mem_cons_of_mem _ hs)⟩
        ((List.mem_cons.mp hx).resolve_left hne)

end Canonical

theorem eval_update_eq (h : e.Canonical) :
    e.eval (update ρ x v) = e.coeff x * v + e.eval (update ρ x 0) := by
  rw [eval_update h.nodup, eval_update h.nodup]
  ring

theorem coeff_eq_eval_sub (h : e.Canonical) :
    e.coeff x = e.eval (update (fun _ => 0) x 1) - e.eval fun _ => 0 := by
  rw [eval_update h.nodup]
  ring

theorem coeff_of_eval (hg : g.Canonical) (he : e.Canonical) (hf : f.Canonical) {a b : Int}
    (h : ∀ ρ, g.eval ρ = a * e.eval ρ + b * f.eval ρ + k) :
    g.coeff x = a * e.coeff x + b * f.coeff x := by
  rw [coeff_eq_eval_sub hg, coeff_eq_eval_sub he, coeff_eq_eval_sub hf, h, h]
  ring

section SetTerm

def Sorted (ts : List (String × Int)) : Prop := (ts.map Prod.fst).Pairwise (· < ·)

theorem mem_setTerm {t : String × Int} (h : t ∈ setTerm x c ts) :
    t = (x, c) ∧ c ≠ 0 ∨ t ∈ ts := by
  induction ts with
  | nil =>
    by_cases hc : c = 0 <;> simp_all [setTerm]
  | cons s ts ih =>
    have hcons {us : List (String × Int)} (ht : t ∈ if c = 0 then us else (x, c) :: us) :
        t = (x, c) ∧ c ≠ 0 ∨ t ∈ us := by
      split at ht
      · exact .inr ht
      · next hc => exact (List.mem_cons.mp ht).imp_left fun h => ⟨h, hc⟩
    unfold setTerm at h
    split at h
    · exact (hcons h).imp_right (List.mem_cons_of_mem _)
    · split at h
      · exact hcons h
      · rcases List.mem_cons.mp h with rfl | h
        · exact .inr (List.mem_cons_self ..)
        · exact (ih h).imp_right (List.mem_cons_of_mem _)

theorem sorted_setTerm (h : Sorted ts) : Sorted (setTerm x c ts) := by
  induction ts with
  | nil =>
    by_cases hc : c = 0 <;> simp [setTerm, hc, Sorted]
  | cons t ts ih =>
    obtain ⟨y, a⟩ := t
    obtain ⟨hy, hts⟩ := List.pairwise_cons.mp h
    have hx {b : Int} (hlt : x < y) : Sorted ((x, b) :: (y, a) :: ts) := by
      refine List.pairwise_cons.mpr ⟨fun z hz => ?_, h⟩
      rcases List.mem_cons.mp hz with rfl | hz
      · exact hlt
      · exact hlt.trans (hy z hz)
    unfold setTerm
    split_ifs with hxy _ hlt _
    · exact hts
    · subst hxy
      exact h
    · exact h
    · exact hx hlt
    · refine List.pairwise_cons.mpr ⟨fun z hz => ?_, ih hts⟩
      obtain ⟨s, hs, rfl⟩ := List.mem_map.mp hz
      rcases mem_setTerm hs with ⟨rfl, _⟩ | hs
      · exact lt_of_le_of_ne (not_lt.mp hlt) (Ne.symm hxy)
      · exact hy s.1 (List.mem_map_of_mem hs)

theorem eval_setTerm (h : Sorted ts) :
    eval ⟨setTerm x c ts, k⟩ ρ = eval ⟨ts, k⟩ ρ + (c - coeff ⟨ts, k⟩ x) * ρ x := by
  induction ts with
  | nil =>
    by_cases hc : c = 0 <;> simp [setTerm, hc, add_comm]
  | cons t ts ih =>
    obtain ⟨y, a⟩ := t
    obtain ⟨hy, hts⟩ := List.pairwise_cons.mp h
    have hzero (hle : x ≤ y) : coeff ⟨ts, k⟩ x = 0 :=
      coeff_eq_zero fun hx => absurd (hy x hx) (not_lt.mpr hle)
    unfold setTerm
    rw [coeff_cons, eval_cons]
    split_ifs with hxy hc hlt hc
    · subst hxy hc
      ring
    · subst hxy
      rw [eval_cons]
      ring
    · rw [hzero hlt.le, eval_cons, hc]
      ring
    · rw [hzero hlt.le, eval_cons, eval_cons]
      ring
    · rw [eval_cons, ih hts]
      ring

end SetTerm

structure Over (V : String → Prop) (e : Affine) : Prop where
  canonical : e.Canonical
  within : ∀ x ∈ e.vars, V x

namespace Over

theorem mono (h : e.Over V) (hVW : ∀ x, V x → W x) : e.Over W :=
  ⟨h.canonical, fun x hx => hVW x (h.within x hx)⟩

theorem avoid (h : e.Over V) (hx : e.coeff x = 0) : e.Over fun y => V y ∧ y ≠ x := by
  refine ⟨h.canonical, fun y hy => ⟨h.within y hy, ?_⟩⟩
  rintro rfl
  exact h.canonical.mem_vars_iff.mp hy hx

theorem eval_congr (h : e.Over V) (hρ : ∀ x, V x → ρ x = σ x) : e.eval ρ = e.eval σ :=
  Affine.eval_congr fun x hx => hρ x (h.within x hx)

theorem const (k : Int) : (Affine.const k).Over V :=
  ⟨⟨List.Pairwise.nil, nofun⟩, nofun⟩

theorem term (hx : V x) (c : Int) : (Affine.term x c).Over V := by
  by_cases hc : c = 0
  · simp only [Affine.term, if_pos hc]
    exact const 0
  · simp only [Affine.term, if_neg hc]
    exact ⟨⟨List.pairwise_singleton .., by simpa using hc⟩, by simpa [vars] using hx⟩

theorem setTerm (h : e.Over V) (hx : c ≠ 0 → V x) :
    (⟨setTerm x c e.terms, k⟩ : Affine).Over V := by
  refine ⟨⟨sorted_setTerm h.canonical.1, fun t ht => ?_⟩, fun y hy => ?_⟩
  · rcases mem_setTerm ht with ⟨rfl, hc⟩ | ht
    · exact hc
    · exact h.canonical.2 t ht
  · obtain ⟨t, ht, rfl⟩ := List.mem_map.mp hy
    rcases mem_setTerm ht with ⟨rfl, hc⟩ | ht
    · exact hx hc
    · exact h.within t.1 (List.mem_map_of_mem ht)

end Over

theorem eval_const : (const k).eval ρ = k := rfl

theorem eval_term : (term x c).eval ρ = c * ρ x := by
  by_cases hc : c = 0 <;> simp [term, hc]

section Operations

theorem addTerm_spec (he : e.Over V) (hx : V x) (h : e.addTerm x c = .ok g) :
    g.Over V ∧ ∀ ρ, g.eval ρ = e.eval ρ + c * ρ x := by
  rw [addTerm_eq] at h
  split_ifs at h with hc
  · cases h
    exact ⟨he, fun ρ => by rw [hc, zero_mul, add_zero]⟩
  · obtain ⟨total, htotal, h⟩ := bind_eq_ok.mp h
    obtain ⟨-, rfl⟩ := exact_eq_ok_iff.mp htotal
    cases h
    refine ⟨he.setTerm fun _ => hx, fun ρ => ?_⟩
    rw [eval_setTerm he.canonical.1]
    change e.eval ρ + (e.coeff x + c - e.coeff x) * ρ x = _
    ring

theorem addConstant_eq_ok : e.addConstant k = .ok g ↔
    Word.Fits (e.constant + k) ∧ { e with constant := e.constant + k } = g := by
  rw [addConstant_eq]
  simp only [bind_eq_ok, exact_eq_ok_iff, and_assoc, exists_and_left, exists_eq_left',
    Except.ok.injEq]

theorem addConstant_spec (he : e.Over V) (h : e.addConstant k = .ok g) :
    g.Over V ∧ ∀ ρ, g.eval ρ = e.eval ρ + k := by
  obtain ⟨-, rfl⟩ := addConstant_eq_ok.mp h
  refine ⟨⟨he.canonical, he.within⟩, fun ρ => ?_⟩
  have hsum : eval ⟨e.terms, e.constant + k⟩ ρ = eval ⟨e.terms, e.constant⟩ ρ + k := by
    rw [eval_eq_add_constant, eval_eq_add_constant (k := e.constant), add_assoc]
  exact hsum

theorem addTerms_spec (he : e.Over V) (hts : ∀ t ∈ ts, V t.1)
    (h : ts.foldlM (fun acc t => acc.addTerm t.1 t.2) e = .ok g) :
    g.Over V ∧ ∀ ρ, g.eval ρ = e.eval ρ + eval ⟨ts, 0⟩ ρ := by
  induction ts generalizing e with
  | nil =>
    cases h
    exact ⟨he, fun ρ => (add_zero _).symm⟩
  | cons t ts ih =>
    obtain ⟨e', he', h⟩ := bind_eq_ok.mp h
    obtain ⟨hover, heval⟩ := addTerm_spec he (hts t (List.mem_cons_self ..)) he'
    obtain ⟨hover', heval'⟩ := ih hover (fun s hs => hts s (List.mem_cons_of_mem _ hs)) h
    refine ⟨hover', fun ρ => ?_⟩
    rw [heval', heval, eval_cons, add_assoc]

theorem add_spec (he : e.Over V) (hf : f.Over V) (h : e.add f = .ok g) :
    g.Over V ∧ ∀ ρ, g.eval ρ = e.eval ρ + f.eval ρ := by
  obtain ⟨sum, hsum, h⟩ := bind_eq_ok.mp h
  obtain ⟨hover, heval⟩ :=
    addTerms_spec he (fun t ht => hf.within t.1 (List.mem_map_of_mem ht)) hsum
  obtain ⟨hover', heval'⟩ := addConstant_spec hover h
  refine ⟨hover', fun ρ => ?_⟩
  have hf' : f.eval ρ = eval ⟨f.terms, 0⟩ ρ + f.constant := eval_eq_add_constant
  rw [heval', heval, hf', add_assoc]

theorem scaleTerms_spec {us : List (String × Int)}
    (h : List.Forall₂ (fun t u =>
      (do .ok (t.1, ← exact (t.2 * k)) : Except SetError (String × Int)) = .ok u) ts us) :
    us = ts.map fun t => (t.1, t.2 * k) := by
  induction h with
  | nil => rfl
  | cons hu _ ih =>
    obtain ⟨c, hc, hu⟩ := bind_eq_ok.mp hu
    obtain ⟨-, rfl⟩ := exact_eq_ok_iff.mp hc
    cases hu
    rw [ih, List.map_cons]

theorem eval_map_mul :
    eval ⟨ts.map fun t => (t.1, t.2 * c), k * c⟩ ρ = c * eval ⟨ts, k⟩ ρ := by
  induction ts with
  | nil => simp [mul_comm]
  | cons t ts ih =>
    rw [List.map_cons, eval_cons, eval_cons, ih]
    ring

theorem scale_spec (he : e.Over V) (h : e.scale k = .ok g) :
    g.Over V ∧ ∀ ρ, g.eval ρ = k * e.eval ρ := by
  unfold scale at h
  split_ifs at h with hk
  · cases h
    exact ⟨.const 0, fun ρ => by rw [zero, eval_const, hk, zero_mul]⟩
  · obtain ⟨us, hus, h⟩ := bind_eq_ok.mp h
    obtain ⟨c, hc, h⟩ := bind_eq_ok.mp h
    obtain ⟨-, rfl⟩ := exact_eq_ok_iff.mp hc
    obtain rfl := scaleTerms_spec (mapM_eq_ok.mp hus)
    cases h
    have hvars : (e.terms.map fun t => (t.1, t.2 * k)).map Prod.fst = e.vars := by
      simp [vars, Function.comp_def]
    refine ⟨⟨⟨?_, fun t ht => ?_⟩, fun x hx => ?_⟩, fun ρ => eval_map_mul⟩
    · rw [hvars]
      exact he.canonical.1
    · obtain ⟨s, hs, rfl⟩ := List.mem_map.mp ht
      exact mul_ne_zero (he.canonical.2 s hs) hk
    · rw [vars, hvars] at hx
      exact he.within x hx

theorem neg_spec (he : e.Over V) (h : e.neg = .ok g) :
    g.Over V ∧ ∀ ρ, g.eval ρ = -e.eval ρ := by
  obtain ⟨hover, heval⟩ := scale_spec he h
  exact ⟨hover, fun ρ => by rw [heval, neg_one_mul]⟩

theorem sub_spec (he : e.Over V) (hf : f.Over V) (h : e.sub f = .ok g) :
    g.Over V ∧ ∀ ρ, g.eval ρ = e.eval ρ - f.eval ρ := by
  obtain ⟨f', hf', h⟩ := bind_eq_ok.mp h
  obtain ⟨hover, heval⟩ := neg_spec hf hf'
  obtain ⟨hover', heval'⟩ := add_spec he hover h
  exact ⟨hover', fun ρ => by rw [heval', heval, sub_eq_add_neg]⟩

theorem erase_spec (he : e.Over V) :
    (e.erase x).Over (fun y => V y ∧ y ≠ x) ∧ ∀ ρ, (e.erase x).eval ρ = e.eval (update ρ x 0) := by
  have heval (ρ : String → Int) : (e.erase x).eval ρ = e.eval (update ρ x 0) := by
    rw [eval_update he.canonical.nodup, erase, eval_setTerm he.canonical.1]
    change e.eval ρ + (0 - e.coeff x) * ρ x = _
    ring
  have hover : (e.erase x).Over V := he.setTerm fun h => absurd rfl h
  refine ⟨hover.avoid ?_, heval⟩
  rw [coeff_eq_eval_sub hover.canonical, heval, heval, update_idem, update_eq_self_iff.mpr rfl,
    sub_self]

theorem substitute_spec (he : e.Over V) (hf : f.Over W) (hVW : ∀ y, V y → y ≠ x → W y)
    (h : e.substitute x f = .ok g) :
    g.Over W ∧ ∀ ρ, g.eval ρ = e.eval (update ρ x (f.eval ρ)) := by
  unfold substitute at h
  simp only at h
  split_ifs at h with hc
  · cases h
    refine ⟨(he.avoid hc).mono fun y hy => hVW y hy.1 hy.2, fun ρ => ?_⟩
    rw [eval_update he.canonical.nodup, hc, zero_mul, add_zero]
  · obtain ⟨f', hf', h⟩ := bind_eq_ok.mp h
    obtain ⟨hover, heval⟩ := scale_spec hf hf'
    obtain ⟨herased, hevalErased⟩ := erase_spec (x := x) he
    obtain ⟨hover', heval'⟩ := add_spec (herased.mono fun y hy => hVW y hy.1 hy.2) hover h
    refine ⟨hover', fun ρ => ?_⟩
    rw [heval', heval, hevalErased, eval_update he.canonical.nodup,
      eval_update he.canonical.nodup]
    ring

theorem coeff_substitute (he : e.Over V) (hf : f.Over W) (hVW : ∀ y, V y → y ≠ x → W y)
    (h : e.substitute x f = .ok g) : g.coeff x = e.coeff x * f.coeff x := by
  obtain ⟨hover, heval⟩ := substitute_spec he hf hVW h
  rw [coeff_eq_eval_sub hover.canonical, coeff_eq_eval_sub hf.canonical, heval, heval, update_idem,
    eval_update he.canonical.nodup, eval_update he.canonical.nodup]
  ring

theorem substituteValue_spec (he : e.Over V) (h : e.substituteValue x v = .ok g) :
    g.Over (fun y => V y ∧ y ≠ x) ∧ ∀ ρ, g.eval ρ = e.eval (update ρ x v) :=
  substitute_spec he (.const v) (fun _ hy hne => ⟨hy, hne⟩) h

end Operations

section Answers

theorem eval_zero : e.eval (fun _ => 0) = e.constant := by
  obtain ⟨ts, k⟩ := e
  induction ts with
  | nil => rfl
  | cons t ts ih => rw [eval_cons, mul_zero, zero_add, ih]

theorem Canonical.eq_of_eval (he : e.Canonical) (hf : f.Canonical)
    (h : ∀ ρ, e.eval ρ = f.eval ρ) : e = f := by
  have hcoeff (x : String) : e.coeff x = f.coeff x := by
    rw [coeff_eq_eval_sub he, coeff_eq_eval_sub hf, h, h]
  have hsub {e f : Affine} (he : e.Canonical) (hf : f.Canonical)
      (hcoeff : ∀ x, e.coeff x = f.coeff x) : e.terms ⊆ f.terms := by
    intro t ht
    have hvalue := coeff_of_mem he.nodup ht
    have hx : t.1 ∈ f.vars := by
      rw [hf.mem_vars_iff, ← hcoeff, hvalue]
      exact he.2 t ht
    obtain ⟨u, hu, hname⟩ := List.mem_map.mp hx
    have hu' := coeff_of_mem hf.nodup hu
    rw [hname, ← hcoeff, hvalue] at hu'
    exact Prod.ext hname.symm hu' ▸ hu
  have hsorted {e : Affine} (he : e.Canonical) : e.terms.Pairwise fun t u => t.1 < u.1 :=
    List.pairwise_map.mp he.1
  have hterms : e.terms = f.terms := by
    have hnodup {e : Affine} (he : e.Canonical) : e.terms.Nodup := List.Nodup.of_map _ he.nodup
    have hperm : e.terms.Perm f.terms := (List.perm_ext_iff_of_nodup (hnodup he) (hnodup hf)).mpr
      fun t => ⟨fun ht => hsub he hf hcoeff ht, fun ht => hsub hf he (fun x => (hcoeff x).symm) ht⟩
    refine hperm.eq_of_pairwise (fun t u _ _ htu hut => ?_) (hsorted he) (hsorted hf)
    exact absurd (htu.trans hut) (lt_irrefl _)
  have hconstant : e.constant = f.constant := by rw [← eval_zero, ← eval_zero, h]
  obtain ⟨ts, k⟩ := e
  obtain ⟨us, l⟩ := f
  exact congrArg₂ Affine.mk hterms hconstant

theorem addTerms_answers (hnodup : (ts.map Prod.fst).Nodup) (hfresh : ∀ t ∈ ts, t.1 ∉ e.vars)
    (hfits : ∀ t ∈ ts, Word.Fits t.2) :
    ∃ g, ts.foldlM (fun acc t => acc.addTerm t.1 t.2) e = .ok g ∧ g.constant = e.constant := by
  induction ts generalizing e with
  | nil => exact ⟨e, rfl, rfl⟩
  | cons t ts ih =>
    obtain ⟨ht, hnodup⟩ := List.nodup_cons.mp hnodup
    obtain ⟨hfresht, hfresh⟩ := List.forall_mem_cons.mp hfresh
    obtain ⟨hfitst, hfits⟩ := List.forall_mem_cons.mp hfits
    obtain ⟨e', he', hvars, hconstant⟩ : ∃ e', e.addTerm t.1 t.2 = .ok e' ∧
        (∀ x ∈ e'.vars, x = t.1 ∨ x ∈ e.vars) ∧ e'.constant = e.constant := by
      rw [addTerm_eq]
      split_ifs
      · exact ⟨e, rfl, fun x hx => .inr hx, rfl⟩
      · rw [coeff_eq_zero hfresht, zero_add, exact_eq_ok_iff.mpr ⟨hfitst, rfl⟩]
        refine ⟨_, rfl, fun x hx => ?_, rfl⟩
        obtain ⟨u, hu, rfl⟩ := List.mem_map.mp hx
        rcases mem_setTerm hu with ⟨rfl, -⟩ | hu
        · exact .inl rfl
        · exact .inr (List.mem_map_of_mem hu)
    have hfresh' : ∀ u ∈ ts, u.1 ∉ e'.vars := by
      intro u hu hx
      rcases hvars u.1 hx with heq | hx
      · exact ht (heq ▸ List.mem_map_of_mem hu)
      · exact hfresh u hu hx
    obtain ⟨g, hg, hgconstant⟩ := ih hnodup hfresh' hfits
    refine ⟨g, ?_, hgconstant.trans hconstant⟩
    rw [List.foldlM_cons, he']
    exact hg

theorem add_answers (hf : f.Canonical) (hfresh : ∀ x ∈ f.vars, x ∉ e.vars)
    (hfits : ∀ t ∈ f.terms, Word.Fits t.2) (hk : Word.Fits (e.constant + f.constant)) :
    ∃ g, e.add f = .ok g := by
  obtain ⟨s, hs, hconstant⟩ := addTerms_answers hf.nodup
    (fun t ht => hfresh t.1 (List.mem_map_of_mem ht)) hfits
  refine ⟨{ s with constant := e.constant + f.constant }, ?_⟩
  rw [add, hs]
  exact addConstant_eq_ok.mpr ⟨hconstant ▸ hk, by rw [hconstant]⟩

theorem scale_answers (hk : k ≠ 0) (hterms : ∀ t ∈ ts, Word.Fits (t.2 * k))
    (hc : Word.Fits (c * k)) :
    scale ⟨ts, c⟩ k = .ok ⟨ts.map fun t => (t.1, t.2 * k), c * k⟩ := by
  have hmap :
      ts.mapM (fun t => (do .ok (t.1, ← exact (t.2 * k)) : Except SetError (String × Int))) =
        .ok (ts.map fun t => (t.1, t.2 * k)) := by
    rw [mapM_eq_ok, List.forall₂_map_right_iff, List.forall₂_same]
    intro t ht
    rw [exact_eq_ok_iff.mpr ⟨hterms t ht, rfl⟩]
    rfl
  rw [scale, if_neg hk, hmap, exact_eq_ok_iff.mpr ⟨hc, rfl⟩]
  rfl

theorem sub_answers (hf : f.Canonical) (hfresh : ∀ x ∈ f.vars, x ∉ e.vars)
    (hfits : ∀ t ∈ f.terms, Word.Fits (-t.2)) (hk : Word.Fits (-f.constant))
    (hsum : Word.Fits (e.constant - f.constant)) : ∃ g, e.sub f = .ok g := by
  obtain ⟨ts, k⟩ := f
  have hneg : neg ⟨ts, k⟩ = .ok ⟨ts.map fun t => (t.1, t.2 * -1), k * -1⟩ := by
    refine scale_answers (by decide) (fun t ht => ?_) ?_
    · rw [mul_neg_one]
      exact hfits t ht
    · rw [mul_neg_one]
      exact hk
  have hover := (neg_spec ⟨hf, fun _ _ => trivial⟩ hneg).1
  rw [sub, hneg]
  refine add_answers hover.canonical (fun x hx => ?_) (fun t ht => ?_) ?_
  · obtain ⟨t, ht, rfl⟩ := List.mem_map.mp hx
    obtain ⟨u, hu, rfl⟩ := List.mem_map.mp ht
    exact hfresh u.1 (List.mem_map_of_mem hu)
  · obtain ⟨u, hu, rfl⟩ := List.mem_map.mp ht
    rw [mul_neg_one]
    exact hfits u hu
  · rw [mul_neg_one, ← sub_eq_add_neg]
    exact hsum

end Answers

end LoopAudit.Affine
