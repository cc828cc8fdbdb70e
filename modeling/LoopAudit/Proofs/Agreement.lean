import LoopAudit.Expr.Evaluation
import LoopAudit.Proofs.Conjunction
import LoopAudit.Proofs.Faults
import LoopAudit.Proofs.FloorDivision
import LoopAudit.Proofs.Lowering
import LoopAudit.Proofs.Parts
import Mathlib.Logic.Relation

/-! The three readings of an expression: its value in words, its linear form, and its form over
helper variables. Where two of them exist they agree, and the helpers of a lowered expression have
exactly one choice of values for each assignment of the other names. -/

namespace LoopAudit

variable {values : Assignment} {ρ σ : String → Int}

def Assignment.Agrees (values : Assignment) (ρ : String → Int) : Prop :=
  ∀ x v, values.get? x = some v → ρ x = v

def Assignment.Binds (values : Assignment) (x : String) : Prop := ∃ v, values.get? x = some v

def Assignment.total (values : Assignment) (x : String) : Int := (values.get? x).getD 0

theorem Assignment.agrees_total : values.Agrees values.total := by
  intro x v hx
  rw [total, hx, Option.getD_some]

open Fallible

namespace Affine

variable {f : Affine} {ts : List (String × Int)} {k : Int}

theorem evaluateFrom_overflows : Overflows (evaluateFrom values k ts) := by
  induction ts generalizing k with
  | nil => exact .ok
  | cons t ts ih =>
    rw [evaluateFrom]
    split
    · exact .ok
    · exact exact_overflows.bind fun _ => exact_overflows.bind fun _ => ih

theorem evaluateFrom_eq_ok {o : Option Int} (hρ : values.Agrees ρ)
    (hbound : ∀ t ∈ ts, values.Binds t.1) (h : evaluateFrom values k ts = .ok o) :
    o = some (eval ⟨ts, k⟩ ρ) := by
  induction ts generalizing k with
  | nil =>
    cases h
    rfl
  | cons t ts ih =>
    obtain ⟨⟨v, hv⟩, hbound⟩ := List.forall_mem_cons.mp hbound
    simp only [evaluateFrom, hv, bind_eq_ok, exact_eq_ok_iff] at h
    obtain ⟨_, ⟨-, rfl⟩, _, ⟨-, rfl⟩, h⟩ := h
    rw [ih hbound h, eval_cons, hρ t.1 v hv, eval_eq_add_constant, eval_eq_add_constant (k := k)]
    congr 1
    ring

theorem evaluate_eq (hρ : values.Agrees ρ) (hbound : ∀ x ∈ f.vars, values.Binds x) :
    f.evaluate values = .ok (some (f.eval ρ)) ∨ f.evaluate values = .error .overflow := by
  cases h : f.evaluate values with
  | error e => exact .inr (congrArg Except.error (evaluateFrom_overflows e h))
  | ok o =>
    have hterms : ∀ t ∈ f.terms, values.Binds t.1 := fun t ht => hbound t.1 (List.mem_map_of_mem ht)
    exact .inl (congrArg Except.ok (evaluateFrom_eq_ok hρ hterms h))

end Affine

namespace Expr

section Evaluation

theorem floorQuotient_eq_ok {n d v : Int} (h : floorQuotient n d = .ok v) :
    d ≠ 0 ∧ n.fdiv d = v := by
  rw [floorQuotient_eq] at h
  split_ifs at h with hd
  exact ⟨hd, (fitting_eq_ok.mp h).2⟩

theorem floorRemainder_eq_ok {n d v : Int} (h : floorRemainder n d = .ok v) :
    d ≠ 0 ∧ n.fmod d = v := by
  obtain ⟨q, hq, h⟩ := bind_eq_ok.mp h
  obtain ⟨multiple, hmultiple, h⟩ := bind_eq_ok.mp h
  obtain ⟨hd, rfl⟩ := floorQuotient_eq_ok hq
  obtain ⟨-, rfl⟩ := fitting_eq_ok.mp hmultiple
  obtain ⟨-, rfl⟩ := fitting_eq_ok.mp h
  exact ⟨hd, by rw [Int.fmod_def, mul_comm]⟩

mutual

theorem evaluate_spec : ∀ (e : Expr) {v : Int}, evaluate values e = .ok v →
    (∀ x ∈ e.reads, values.Binds x) ∧ ∀ ρ, values.Agrees ρ → value ρ e = some v
  | int n, v, h => by
    cases h
    exact ⟨nofun, fun ρ _ => by rw [value]⟩
  | var x, v, h => by
    unfold evaluate at h
    split at h
    · next hv =>
      cases h
      refine ⟨List.forall_mem_singleton.mpr ⟨v, hv⟩, fun ρ hρ => ?_⟩
      rw [value, hρ x v hv]
    · cases h
  | sum xs, v, h => by
    obtain ⟨hbound, hval⟩ := evaluateSum_spec xs h
    refine ⟨hbound, fun ρ hρ => ?_⟩
    obtain ⟨vs, hvs, rfl⟩ := hval ρ hρ
    rw [value, hvs, zero_add]
    rfl
  | product xs, v, h => by
    obtain ⟨hbound, hval⟩ := evaluateProduct_spec xs h
    refine ⟨hbound, fun ρ hρ => ?_⟩
    obtain ⟨vs, hvs, rfl⟩ := hval ρ hρ
    rw [value, hvs, one_mul]
    rfl
  | neg x, v, h => by
    obtain ⟨w, hw, h⟩ := bind_eq_ok.mp h
    obtain ⟨-, rfl⟩ := fitting_eq_ok.mp h
    obtain ⟨hbound, hval⟩ := evaluate_spec x hw
    refine ⟨hbound, fun ρ hρ => ?_⟩
    rw [value, hval ρ hρ]
    rfl
  | floorDiv a b, v, h => by
    obtain ⟨n, hn, h⟩ := bind_eq_ok.mp h
    obtain ⟨d, hd, h⟩ := bind_eq_ok.mp h
    obtain ⟨hne, rfl⟩ := floorQuotient_eq_ok h
    obtain ⟨hbound, hval⟩ := evaluate_spec a hn
    obtain ⟨hbound', hval'⟩ := evaluate_spec b hd
    refine ⟨List.forall_mem_append.mpr ⟨hbound, hbound'⟩, fun ρ hρ => ?_⟩
    rw [value, hval ρ hρ, hval' ρ hρ]
    simp [hne]
  | remainder a b, v, h => by
    obtain ⟨n, hn, h⟩ := bind_eq_ok.mp h
    obtain ⟨d, hd, h⟩ := bind_eq_ok.mp h
    obtain ⟨hne, rfl⟩ := floorRemainder_eq_ok h
    obtain ⟨hbound, hval⟩ := evaluate_spec a hn
    obtain ⟨hbound', hval'⟩ := evaluate_spec b hd
    refine ⟨List.forall_mem_append.mpr ⟨hbound, hbound'⟩, fun ρ hρ => ?_⟩
    rw [value, hval ρ hρ, hval' ρ hρ]
    simp [hne]
  | subscript _ _, v, h => by cases h
  | call _ _, v, h => by cases h

theorem evaluateSum_spec : ∀ (xs : List Expr) {acc v : Int}, evaluateSum values acc xs = .ok v →
    (∀ x ∈ readsAll xs, values.Binds x) ∧
      ∀ ρ, values.Agrees ρ → ∃ vs, valueAll ρ xs = some vs ∧ acc + vs.sum = v
  | [], acc, v, h => by
    cases h
    exact ⟨nofun, fun ρ _ => ⟨[], rfl, by simp⟩⟩
  | x :: xs, acc, v, h => by
    obtain ⟨w, hw, h⟩ := bind_eq_ok.mp h
    obtain ⟨next, hnext, h⟩ := bind_eq_ok.mp h
    obtain ⟨-, rfl⟩ := fitting_eq_ok.mp hnext
    obtain ⟨hbound, hval⟩ := evaluate_spec x hw
    obtain ⟨hbound', hval'⟩ := evaluateSum_spec xs h
    refine ⟨List.forall_mem_append.mpr ⟨hbound, hbound'⟩, fun ρ hρ => ?_⟩
    obtain ⟨vs, hvs, rfl⟩ := hval' ρ hρ
    refine ⟨w :: vs, ?_, by rw [List.sum_cons, add_assoc]⟩
    rw [valueAll, hval ρ hρ, hvs]
    rfl

theorem evaluateProduct_spec : ∀ (xs : List Expr) {acc v : Int},
    evaluateProduct values acc xs = .ok v → (∀ x ∈ readsAll xs, values.Binds x) ∧
      ∀ ρ, values.Agrees ρ → ∃ vs, valueAll ρ xs = some vs ∧ acc * vs.prod = v
  | [], acc, v, h => by
    cases h
    exact ⟨nofun, fun ρ _ => ⟨[], rfl, by simp⟩⟩
  | x :: xs, acc, v, h => by
    obtain ⟨w, hw, h⟩ := bind_eq_ok.mp h
    obtain ⟨next, hnext, h⟩ := bind_eq_ok.mp h
    obtain ⟨-, rfl⟩ := fitting_eq_ok.mp hnext
    obtain ⟨hbound, hval⟩ := evaluate_spec x hw
    obtain ⟨hbound', hval'⟩ := evaluateProduct_spec xs h
    refine ⟨List.forall_mem_append.mpr ⟨hbound, hbound'⟩, fun ρ hρ => ?_⟩
    obtain ⟨vs, hvs, rfl⟩ := hval' ρ hρ
    refine ⟨w :: vs, ?_, by rw [List.prod_cons, mul_assoc]⟩
    rw [valueAll, hval ρ hρ, hvs]
    rfl

end

end Evaluation

section Linear

variable {space : Space}

def DivisionFree (e : Expr) : Prop :=
  ∀ a b, ¬ Occurs (floorDiv a b) e ∧ ¬ Occurs (remainder a b) e

theorem DivisionFree.part {x e : Expr} (h : e.DivisionFree) (hx : x ∈ e.parts) :
    x.DivisionFree := fun a b =>
  ⟨fun ho => (h a b).1 (.inside hx ho), fun ho => (h a b).2 (.inside hx ho)⟩

theorem divisionFree_of_parts {e : Expr} (hne : ∀ a b, e ≠ floorDiv a b ∧ e ≠ remainder a b)
    (h : ∀ x ∈ e.parts, x.DivisionFree) : e.DivisionFree := by
  intro a b
  constructor
  · rintro (_ | ⟨hx, ho⟩)
    · exact (hne a b).1 rfl
    · exact (h _ hx a b).1 ho
  · rintro (_ | ⟨hx, ho⟩)
    · exact (hne a b).2 rfl
    · exact (h _ hx a b).2 ho

mutual

theorem lower_iff_linearize : ∀ (e : Expr) {state state' : Lowering} {f : Affine},
    e.DivisionFree → (∀ x ∈ e.reads, x ∈ space.names) →
    (lower space state e = .ok (some (f, state')) ↔ linearize e = some f ∧ state' = state)
  | int n, state, state', f, _, _ => by simp [lower, linearize, eq_comm]
  | var x, state, state', f, _, hreads => by
    have hx : space.contains x = true :=
      Space.contains_iff.mpr (hreads x (List.mem_singleton.mpr rfl))
    simp [lower, linearize, hx, eq_comm]
  | sum xs, state, state', f, hfree, hreads => by
    rw [lower, linearize]
    exact lowerSum_iff_linearizeSum xs (fun _ => hfree.part) hreads
  | product xs, state, state', f, hfree, hreads => by
    rw [lower, linearize]
    exact lowerProduct_iff_linearizeProduct xs (fun _ => hfree.part) hreads
  | neg x, state, state', f, hfree, hreads => by
    have hx := hfree.part (List.mem_singleton.mpr rfl : x ∈ (neg x).parts)
    constructor
    · intro h
      obtain ⟨e, he, hneg⟩ := lower_neg h
      obtain ⟨hlinear, hstate⟩ := (lower_iff_linearize x hx hreads).mp he
      exact ⟨Option.bind_eq_some_iff.mpr ⟨e, hlinear, toOption_eq_some.mpr hneg⟩, hstate⟩
    · rintro ⟨h, rfl⟩
      rw [linearize] at h
      obtain ⟨e, he, h⟩ := Option.bind_eq_some_iff.mp h
      have hlower : lower space state' x = .ok (some (e, state')) :=
        (lower_iff_linearize x hx hreads).mpr ⟨he, rfl⟩
      have hneg : e.neg = .ok f := toOption_eq_some.mp h
      exact bind_eq_ok.mpr ⟨_, hlower, bind_eq_ok.mpr ⟨f, hneg, rfl⟩⟩
  | floorDiv a b, _, _, _, hfree, _ => absurd .here (hfree a b).1
  | remainder a b, _, _, _, hfree, _ => absurd .here (hfree a b).2
  | subscript _ _, _, _, _, _, _ => by simp [lower, linearize]
  | call _ _, _, _, _, _, _ => by simp [lower, linearize]

theorem lowerSum_iff_linearizeSum : ∀ (xs : List Expr) {state state' : Lowering} {acc f : Affine},
    (∀ x ∈ xs, x.DivisionFree) → (∀ x ∈ readsAll xs, x ∈ space.names) →
    (lowerSum space state acc xs = .ok (some (f, state')) ↔
      linearizeSum acc xs = some f ∧ state' = state)
  | [], state, state', acc, f, _, _ => by simp [lowerSum, linearizeSum, eq_comm]
  | x :: xs, state, state', acc, f, hfree, hreads => by
    obtain ⟨hx, hxs⟩ := List.forall_mem_cons.mp hfree
    obtain ⟨hreads, hreads'⟩ := List.forall_mem_append.mp hreads
    constructor
    · intro h
      obtain ⟨e, mid, next, he, hnext, htail⟩ := lowerSum_cons h
      obtain ⟨hlinear, rfl⟩ := (lower_iff_linearize x hx hreads).mp he
      obtain ⟨hrest, hstate⟩ := (lowerSum_iff_linearizeSum xs hxs hreads').mp htail
      refine ⟨Option.bind_eq_some_iff.mpr ⟨e, hlinear, ?_⟩, hstate⟩
      exact Option.bind_eq_some_iff.mpr ⟨next, toOption_eq_some.mpr hnext, hrest⟩
    · rintro ⟨h, rfl⟩
      obtain ⟨e, he, h⟩ := Option.bind_eq_some_iff.mp h
      obtain ⟨next, hnext, h⟩ := Option.bind_eq_some_iff.mp h
      have hlower : lower space state' x = .ok (some (e, state')) :=
        (lower_iff_linearize x hx hreads).mpr ⟨he, rfl⟩
      refine bind_eq_ok.mpr ⟨_, hlower, bind_eq_ok.mpr ⟨next, toOption_eq_some.mp hnext, ?_⟩⟩
      exact (lowerSum_iff_linearizeSum xs hxs hreads').mpr ⟨h, rfl⟩

theorem lowerProduct_iff_linearizeProduct : ∀ (xs : List Expr) {state state' : Lowering}
    {acc f : Affine}, (∀ x ∈ xs, x.DivisionFree) → (∀ x ∈ readsAll xs, x ∈ space.names) →
    (lowerProduct space state acc xs = .ok (some (f, state')) ↔
      linearizeProduct acc xs = some f ∧ state' = state)
  | [], state, state', acc, f, _, _ => by simp [lowerProduct, linearizeProduct, eq_comm]
  | x :: xs, state, state', acc, f, hfree, hreads => by
    obtain ⟨hx, hxs⟩ := List.forall_mem_cons.mp hfree
    obtain ⟨hreads, hreads'⟩ := List.forall_mem_append.mp hreads
    constructor
    · intro h
      obtain ⟨e, mid, next, he, hnext, htail⟩ := lowerProduct_cons h
      obtain ⟨hlinear, rfl⟩ := (lower_iff_linearize x hx hreads).mp he
      obtain ⟨hrest, hstate⟩ := (lowerProduct_iff_linearizeProduct xs hxs hreads').mp htail
      have hproduct := Option.join_eq_some_iff.mpr (toOption_eq_some.mpr hnext)
      refine ⟨Option.bind_eq_some_iff.mpr ⟨e, hlinear, ?_⟩, hstate⟩
      exact Option.bind_eq_some_iff.mpr ⟨next, hproduct, hrest⟩
    · rintro ⟨h, rfl⟩
      obtain ⟨e, he, h⟩ := Option.bind_eq_some_iff.mp h
      obtain ⟨next, hnext, h⟩ := Option.bind_eq_some_iff.mp h
      have hlower : lower space state' x = .ok (some (e, state')) :=
        (lower_iff_linearize x hx hreads).mpr ⟨he, rfl⟩
      have hproduct := toOption_eq_some.mp (Option.join_eq_some_iff.mp hnext)
      refine bind_eq_ok.mpr ⟨_, hlower, bind_eq_ok.mpr ⟨some next, hproduct, ?_⟩⟩
      exact (lowerProduct_iff_linearizeProduct xs hxs hreads').mpr ⟨h, rfl⟩

end

end Linear

section Helpers

open Lowering Conjunction Function

variable {space : Space} {state state' : Lowering} {f : Affine}

def Lowering.Divides (space : Space) (state state' : Lowering) : Prop :=
  state'.Sound space ∧ ∃ q num d, Pins state state' q num d

theorem Lowering.Lowered.divides {mid last : Lowering} {num den : Affine}
    (hnum : Lowered space state mid num) (hden : Lowered space mid last den)
    (h : last.divide? num den = .ok (some (f, state'))) : Divides space last state' := by
  obtain ⟨-, hne, hq⟩ := quotient_of_divide? h
  obtain ⟨q, -, hs, hpins⟩ := quotient_pins hden.sound (hnum.form.mono hden.grows.taken) hne hq
  exact ⟨hs, q, num, den.constant, hpins⟩

mutual

theorem lower_divides : ∀ (e : Expr) {state state' : Lowering} {f : Affine}, state.Sound space →
    lower space state e = .ok (some (f, state')) →
      Relation.ReflTransGen (Divides space) state state'
  | int n, state, state', f, _, h => by
    cases h
    exact .refl
  | var x, state, state', f, _, h => by
    unfold lower at h
    split_ifs at h
    · cases h
      exact .refl
    · cases h
  | sum xs, state, state', f, hs, h => lowerSum_divides xs hs h
  | product xs, state, state', f, hs, h => lowerProduct_divides xs hs h
  | neg x, state, state', f, hs, h => by
    obtain ⟨e, he, -⟩ := lower_neg h
    exact lower_divides x hs he
  | floorDiv a b, state, state', f, hs, h => by
    obtain ⟨num, mid, den, last, hnum, hden, hdiv⟩ := lower_floorDiv h
    have hlow := (lower_spec a hs hnum).1
    have hlow' := (lower_spec b hlow.sound hden).1
    exact ((lower_divides a hs hnum).trans (lower_divides b hlow.sound hden)).tail
      (hlow.divides hlow' hdiv)
  | remainder a b, state, state', f, hs, h => by
    obtain ⟨num, mid, den, last, q, multiple, hnum, hden, hdiv, -, -⟩ := lower_remainder h
    have hlow := (lower_spec a hs hnum).1
    have hlow' := (lower_spec b hlow.sound hden).1
    exact ((lower_divides a hs hnum).trans (lower_divides b hlow.sound hden)).tail
      (hlow.divides hlow' hdiv)
  | subscript _ _, _, _, _, _, h => by cases h
  | call _ _, _, _, _, _, h => by cases h

theorem lowerSum_divides : ∀ (xs : List Expr) {state state' : Lowering} {acc f : Affine},
    state.Sound space → lowerSum space state acc xs = .ok (some (f, state')) →
    Relation.ReflTransGen (Divides space) state state'
  | [], state, state', acc, f, _, h => by
    cases h
    exact .refl
  | x :: xs, state, state', acc, f, hs, h => by
    obtain ⟨e, mid, next, he, -, h⟩ := lowerSum_cons h
    exact (lower_divides x hs he).trans (lowerSum_divides xs (lower_spec x hs he).1.sound h)

theorem lowerProduct_divides : ∀ (xs : List Expr) {state state' : Lowering} {acc f : Affine},
    state.Sound space → lowerProduct space state acc xs = .ok (some (f, state')) →
    Relation.ReflTransGen (Divides space) state state'
  | [], state, state', acc, f, _, h => by
    cases h
    exact .refl
  | x :: xs, state, state', acc, f, hs, h => by
    obtain ⟨e, mid, next, he, -, h⟩ := lowerProduct_cons h
    exact (lower_divides x hs he).trans (lowerProduct_divides xs (lower_spec x hs he).1.sound h)

end

/-- The helpers are names in use besides those of the space, and for each assignment of the other
names there is one choice of their values. -/
structure Lowering.Determined (space : Space) (state : Lowering) : Prop where
  taken : ∀ x ∈ state.helpers, x ∈ state.taken
  apart : ∀ x ∈ state.helpers, x ∉ space.names
  unique : ∀ ρ, ∃! σ, AgreeOff state.helpers σ ρ ∧ state.Holds σ

theorem Lowering.Determined.divides (hs : state.Sound space) (h : Determined space state)
    (hdiv : Divides space state state') : Determined space state' := by
  obtain ⟨-, q, num, d, hpins⟩ := hdiv
  have hmem (y : String) : y ∈ state'.helpers ↔ y ∈ state.helpers ∨ y = q := by
    rw [hpins.helpers, List.mem_append, List.mem_singleton]
  refine ⟨fun x hx => ?_, fun x hx hname => ?_, fun ρ => ?_⟩
  · rw [hpins.taken, List.mem_append, List.mem_singleton]
    exact ((hmem x).mp hx).imp_left (h.taken x)
  · rcases (hmem x).mp hx with hx | rfl
    · exact h.apart x hx hname
    · exact hpins.fresh (hs.names x hname)
  · obtain ⟨σ, ⟨hσ, hholds⟩, hunique⟩ := h.unique ρ
    have hsame := update_of_not_mem (ρ := σ) (v := (num.eval σ).fdiv d) hpins.fresh
    refine ⟨update σ q ((num.eval σ).fdiv d), ⟨fun y hy => ?_, (hpins.holds _).mpr ?_⟩, ?_⟩
    · obtain ⟨hy, hne⟩ := not_or.mp (mt (hmem y).mpr hy)
      rw [update_of_ne hne, hσ y hy]
    · exact ⟨(hs.holds_congr hsame).mpr hholds, by rw [update_self, hpins.form.eval_congr hsame]⟩
    · rintro τ ⟨hτ, hτholds⟩
      obtain ⟨hτholds, hτq⟩ := (hpins.holds τ).mp hτholds
      -- With the new helper set back to its old value only the earlier choice is left.
      have hsame' := update_of_not_mem (ρ := τ) (v := ρ q) hpins.fresh
      have hback : update τ q (ρ q) = σ := by
        refine hunique _ ⟨fun y hy => ?_, (hs.holds_congr hsame').mpr hτholds⟩
        by_cases hne : y = q
        · rw [hne, update_self]
        · rw [update_of_ne hne, hτ y (mt (hmem y).mp (not_or.mpr ⟨hy, hne⟩))]
      have heval : num.eval σ = num.eval τ := by rw [← hback, hpins.form.eval_congr hsame']
      calc τ = update τ q (τ q) := (update_eq_self q τ).symm
        _ = update (update τ q (ρ q)) q (τ q) := (update_idem ..).symm
        _ = update σ q ((num.eval σ).fdiv d) := by rw [hback, hτq, heval]

theorem Lowering.Determined.run (hs : state.Sound space) (h : Determined space state)
    (hrun : Relation.ReflTransGen (Divides space) state state') :
    state'.Sound space ∧ Determined space state' := by
  induction hrun with
  | refl => exact ⟨hs, h⟩
  | tail _ hstep ih => exact ⟨hstep.1, ih.2.divides ih.1 hstep⟩

inductive Lowering.Reached (space : Space) : Lowering → Prop
  | start : Reached space (.start space)
  | lowered {state state' : Lowering} {e : Expr} {f : Affine} : Reached space state →
      lower space state e = .ok (some (f, state')) → Reached space state'
  | named {state : Lowering} (base : String) : Reached space state →
      Reached space (state.fresh base).2

theorem Lowering.Reached.determined (h : Reached space state) :
    state.Sound space ∧ Determined space state := by
  induction h with
  | start =>
    refine ⟨.start, nofun, nofun, fun ρ => ⟨ρ, ⟨fun _ _ => rfl, start_holds⟩, ?_⟩⟩
    rintro σ ⟨hσ, -⟩
    exact funext fun y => hσ y List.not_mem_nil
  | lowered _ hlower ih =>
    exact ih.2.run ih.1 (lower_divides _ ih.1 hlower)
  | @named state base _ ih =>
    obtain ⟨hs, hdetermined⟩ := ih
    obtain ⟨hsound, -, -, hgrow, -⟩ := fresh_spec hs (Prod.eta (state.fresh base)).symm
    exact ⟨hsound, fun x hx => hgrow x (hdetermined.taken x hx), hdetermined.apart,
      hdetermined.unique⟩

theorem lower_value {e : Expr} (hs : Reached space state)
    (h : lower space state e = .ok (some (f, state'))) (ρ : String → Int) :
    ∃ σ, (∀ τ, AgreeOff state'.helpers τ ρ ∧ state'.Holds τ ↔ τ = σ) ∧
      value ρ e = some (f.eval σ) := by
  have hdetermined := (hs.lowered h).determined.2
  obtain ⟨σ, ⟨hσ, hholds⟩, hunique⟩ := hdetermined.unique ρ
  refine ⟨σ, fun τ => ⟨hunique τ, fun hτ => hτ ▸ ⟨hσ, hholds⟩⟩, ?_⟩
  have hreads : ∀ x ∈ e.reads, σ x = ρ x := fun x hx =>
    hσ x fun hx' => hdetermined.apart x hx' (lower_reads e h x hx)
  rw [← value_congr e hreads, (lower_spec e hs.determined.1 h).2 σ hholds]

end Helpers

open Lowering Conjunction

/-- A linear form is over the names the expression depends on and has its value; without divisions
lowering finds the linear form and nothing else; and the helpers of a lowered expression have one
choice of values, under which the form has the exact value, in words the evaluated one. -/
theorem readings_agree (e : Expr) :
    (∀ f, linearize e = some f → (∀ x ∈ f.vars, x ∈ e.dependencies) ∧
      ∀ values v, evaluate values e = .ok v → (∀ ρ, values.Agrees ρ → f.eval ρ = v) ∧
        (f.evaluate values = .ok (some v) ∨ f.evaluate values = .error .overflow)) ∧
    (∀ space state state' f, e.DivisionFree → (∀ x ∈ e.dependencies, x ∈ space.names) →
      (lower space state e = .ok (some (f, state')) ↔ linearize e = some f ∧ state' = state)) ∧
    (∀ space state state' f, Reached space state → lower space state e = .ok (some (f, state')) →
      (∀ x ∈ state'.helpers, x ∉ space.names) ∧
      ∀ ρ, ∃ σ, (∀ τ, AgreeOff state'.helpers τ ρ ∧ state'.Holds τ ↔ τ = σ) ∧
        value ρ e = some (f.eval σ) ∧
        ∀ values v, values.Agrees ρ → evaluate values e = .ok v → f.eval σ = v) := by
  refine ⟨fun f hf => ?_, fun space state state' f hfree hdeps => ?_,
    fun space state state' f hs h => ?_⟩
  · obtain ⟨hover, hval⟩ := linearize_spec (V := (· ∈ e.reads)) e (fun _ => id) hf
    refine ⟨fun x hx => Names.mem_ofList.mpr (hover.within x hx), fun values v hv => ?_⟩
    obtain ⟨hbound, hexact⟩ := evaluate_spec e hv
    have heval (ρ) (hρ : values.Agrees ρ) : f.eval ρ = v :=
      Option.some.inj ((hval ρ).symm.trans (hexact ρ hρ))
    refine ⟨heval, ?_⟩
    rw [← heval _ values.agrees_total]
    exact Affine.evaluate_eq values.agrees_total fun x hx => hbound x (hover.within x hx)
  · exact lower_iff_linearize e hfree fun x hx => hdeps x (Names.mem_ofList.mpr hx)
  · refine ⟨(hs.lowered h).determined.2.apart, fun ρ => ?_⟩
    obtain ⟨σ, hσ, hval⟩ := lower_value hs h ρ
    refine ⟨σ, hσ, hval, fun values v hρ hv => ?_⟩
    exact Option.some.inj (hval.symm.trans ((evaluate_spec e hv).2 ρ hρ))

def twiceLess : Expr := .sum [.product [.int 2, .var "i"], .neg (.var "n")]

def foldedHalf : Expr := .remainder (.floorDiv (.var "i") (.int (-2))) (.int 3)

theorem twiceLess_divisionFree : twiceLess.DivisionFree := by
  have hint (n : Int) : (int n).DivisionFree := divisionFree_of_parts (by simp) nofun
  have hvar (x : String) : (var x).DivisionFree := divisionFree_of_parts (by simp) nofun
  refine divisionFree_of_parts (by simp [twiceLess]) (List.forall_mem_cons.mpr
    ⟨divisionFree_of_parts (by simp) ?_, List.forall_mem_singleton.mpr
      (divisionFree_of_parts (by simp) (List.forall_mem_singleton.mpr (hvar "n")))⟩)
  exact List.forall_mem_cons.mpr ⟨hint 2, List.forall_mem_singleton.mpr (hvar "i")⟩

theorem foldedHalf_readings :
    (∀ ρ, Assignment.Agrees [("i", 7), ("n", 3)] ρ →
      Affine.eval ⟨[("i", 2), ("n", -1)], 0⟩ ρ = 11) ∧
    lower ⟨["n"], ["i"]⟩ (.start ⟨["n"], ["i"]⟩) twiceLess =
      .ok (some (⟨[("i", 2), ("n", -1)], 0⟩, .start ⟨["n"], ["i"]⟩)) ∧
    ∃ f state, lower ⟨["n"], ["i"]⟩ (.start ⟨["n"], ["i"]⟩) foldedHalf = .ok (some (f, state)) ∧
      state.helpers = ["_q", "_q_1"] ∧
      ∃ σ, (∀ τ, AgreeOff state.helpers τ (Assignment.total [("i", 7)]) ∧ state.Holds τ ↔
        τ = σ) ∧ f.eval σ = 2 := by
  obtain ⟨hlinear, hlower, -⟩ := readings_agree twiceLess
  obtain ⟨f, state, h, hhelpers⟩ : ∃ f state,
      lower ⟨["n"], ["i"]⟩ (.start ⟨["n"], ["i"]⟩) foldedHalf = .ok (some (f, state)) ∧
        state.helpers = ["_q", "_q_1"] := ⟨_, _, rfl, rfl⟩
  obtain ⟨σ, hσ, -, hvalue⟩ :=
    ((readings_agree foldedHalf).2.2 _ _ _ _ .start h).2 (Assignment.total [("i", 7)])
  exact ⟨((hlinear _ rfl).2 [("i", 7), ("n", 3)] 11 rfl).1,
    (hlower _ _ _ _ twiceLess_divisionFree (by decide)).mpr ⟨rfl, rfl⟩, f, state, h, hhelpers, σ,
    hσ, hvalue [("i", 7)] 2 Assignment.agrees_total rfl⟩

end Expr

end LoopAudit
