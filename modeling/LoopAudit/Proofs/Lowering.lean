import LoopAudit.Expr.Range
import LoopAudit.Proofs.Constraint
import LoopAudit.Proofs.Space
import Mathlib.Data.List.Perm.Subperm
import Mathlib.Algebra.BigOperators.Group.List.Basic

/-! Affine forms of expressions and their values over the integers. A lowered expression has the
value of its form wherever the helper variables satisfy their constraints, and such helpers exist
for every assignment of the names in use before. -/

namespace LoopAudit.Expr

open Function Fallible

variable {V : String → Prop} {space : Space} {e f g acc : Affine} {x : String}
  {ρ σ : String → Int}

mutual

/-- The value over the integers, with division rounded down; `none` for a division by zero and for
what only a run can tell. -/
def value (ρ : String → Int) : Expr → Option Int
  | int n => some n
  | var x => some (ρ x)
  | sum xs => (valueAll ρ xs).map List.sum
  | product xs => (valueAll ρ xs).map List.prod
  | neg x => (value ρ x).map (- ·)
  | floorDiv a b => do
    let n ← value ρ a
    let d ← value ρ b
    if d = 0 then none else some (n.fdiv d)
  | remainder a b => do
    let n ← value ρ a
    let d ← value ρ b
    if d = 0 then none else some (n.fmod d)
  | subscript _ _ => none
  | call _ _ => none

def valueAll (ρ : String → Int) : List Expr → Option (List Int)
  | [] => some []
  | x :: xs => do
    let v ← value ρ x
    let vs ← valueAll ρ xs
    some (v :: vs)

end

mutual

theorem value_congr : ∀ (e : Expr), (∀ x ∈ e.reads, ρ x = σ x) → value ρ e = value σ e
  | int n, _ => rfl
  | var x, h => by rw [value, value, h x (List.mem_singleton.mpr rfl)]
  | sum xs, h => by rw [value, value, valueAll_congr xs h]
  | product xs, h => by rw [value, value, valueAll_congr xs h]
  | neg x, h => by rw [value, value, value_congr x h]
  | floorDiv a b, h => by
    obtain ⟨ha, hb⟩ := List.forall_mem_append.mp h
    rw [value, value, value_congr a ha, value_congr b hb]
  | remainder a b, h => by
    obtain ⟨ha, hb⟩ := List.forall_mem_append.mp h
    rw [value, value, value_congr a ha, value_congr b hb]
  | subscript _ _, _ => by rw [value, value]
  | call _ _, _ => by rw [value, value]

theorem valueAll_congr :
    ∀ (xs : List Expr), (∀ x ∈ readsAll xs, ρ x = σ x) → valueAll ρ xs = valueAll σ xs
  | [], _ => rfl
  | x :: xs, h => by
    obtain ⟨hx, hxs⟩ := List.forall_mem_append.mp h
    rw [valueAll, valueAll, value_congr x hx, valueAll_congr xs hxs]

end

theorem affineProduct?_spec (he : e.Over V) (hf : f.Over V)
    (h : affineProduct? e f = .ok (some g)) :
    g.Over V ∧ ∀ ρ, g.eval ρ = e.eval ρ * f.eval ρ := by
  unfold affineProduct? at h
  split_ifs at h with hc hd
  · obtain ⟨g', hg', h⟩ := map_eq_ok.mp h
    cases h
    obtain ⟨hover, heval⟩ := Affine.scale_spec hf hg'
    refine ⟨hover, fun ρ => ?_⟩
    rw [heval, Affine.eval_of_isConstant hc]
  · obtain ⟨g', hg', h⟩ := map_eq_ok.mp h
    cases h
    obtain ⟨hover, heval⟩ := Affine.scale_spec he hg'
    refine ⟨hover, fun ρ => ?_⟩
    rw [heval, Affine.eval_of_isConstant hd, mul_comm]
  · cases h

section Linearize

theorem toOption_eq_some {α : Type} {r : Except SetError α} {a : α} :
    r.toOption = some a ↔ r = .ok a := by
  cases r <;> simp [Except.toOption]

mutual

theorem linearize_spec : ∀ (x : Expr) {f : Affine}, (∀ y ∈ x.reads, V y) → linearize x = some f →
    f.Over V ∧ ∀ ρ, value ρ x = some (f.eval ρ)
  | int n, f, _, h => by
    cases h
    exact ⟨.const n, fun ρ => by rw [value, Affine.eval_const]⟩
  | var x, f, hV, h => by
    cases h
    refine ⟨.term (hV x (List.mem_singleton.mpr rfl)) 1, fun ρ => ?_⟩
    rw [value, Affine.var, Affine.eval_term, one_mul]
  | sum xs, f, hV, h => by
    obtain ⟨hover, hval⟩ := linearizeSum_spec xs hV (.const 0) h
    refine ⟨hover, fun ρ => ?_⟩
    obtain ⟨vs, hvs, heval⟩ := hval ρ
    rw [value, hvs, heval, Affine.eval_const, zero_add]
    rfl
  | product xs, f, hV, h => by
    obtain ⟨hover, hval⟩ := linearizeProduct_spec xs hV (.const 1) h
    refine ⟨hover, fun ρ => ?_⟩
    obtain ⟨vs, hvs, heval⟩ := hval ρ
    rw [value, hvs, heval, Affine.eval_const, one_mul]
    rfl
  | neg x, f, hV, h => by
    obtain ⟨g, hg, h⟩ := Option.bind_eq_some_iff.mp h
    obtain ⟨hover, hval⟩ := linearize_spec x hV hg
    obtain ⟨hover', heval⟩ := Affine.neg_spec hover (toOption_eq_some.mp h)
    refine ⟨hover', fun ρ => ?_⟩
    rw [value, hval, heval]
    rfl

theorem linearizeSum_spec : ∀ (xs : List Expr) {acc f : Affine}, (∀ y ∈ readsAll xs, V y) →
    acc.Over V → linearizeSum acc xs = some f →
    f.Over V ∧ ∀ ρ, ∃ vs, valueAll ρ xs = some vs ∧ f.eval ρ = acc.eval ρ + vs.sum
  | [], acc, f, _, hacc, h => by
    cases h
    exact ⟨hacc, fun ρ => ⟨[], rfl, by simp⟩⟩
  | x :: xs, acc, f, hV, hacc, h => by
    obtain ⟨hx, hxs⟩ := List.forall_mem_append.mp hV
    obtain ⟨e, he, h⟩ := Option.bind_eq_some_iff.mp h
    obtain ⟨next, hnext, h⟩ := Option.bind_eq_some_iff.mp h
    obtain ⟨hover, hval⟩ := linearize_spec x hx he
    obtain ⟨hover', heval⟩ := Affine.add_spec hacc hover (toOption_eq_some.mp hnext)
    obtain ⟨hover'', hval'⟩ := linearizeSum_spec xs hxs hover' h
    refine ⟨hover'', fun ρ => ?_⟩
    obtain ⟨vs, hvs, hsum⟩ := hval' ρ
    refine ⟨e.eval ρ :: vs, by rw [valueAll, hval, hvs]; rfl, ?_⟩
    rw [hsum, heval, List.sum_cons, add_assoc]

theorem linearizeProduct_spec : ∀ (xs : List Expr) {acc f : Affine}, (∀ y ∈ readsAll xs, V y) →
    acc.Over V → linearizeProduct acc xs = some f →
    f.Over V ∧ ∀ ρ, ∃ vs, valueAll ρ xs = some vs ∧ f.eval ρ = acc.eval ρ * vs.prod
  | [], acc, f, _, hacc, h => by
    cases h
    exact ⟨hacc, fun ρ => ⟨[], rfl, by simp⟩⟩
  | x :: xs, acc, f, hV, hacc, h => by
    obtain ⟨hx, hxs⟩ := List.forall_mem_append.mp hV
    obtain ⟨e, he, h⟩ := Option.bind_eq_some_iff.mp h
    obtain ⟨next, hnext, h⟩ := Option.bind_eq_some_iff.mp h
    have hproduct := toOption_eq_some.mp (Option.join_eq_some_iff.mp hnext)
    obtain ⟨hover, hval⟩ := linearize_spec x hx he
    obtain ⟨hover', heval⟩ := affineProduct?_spec hacc hover hproduct
    obtain ⟨hover'', hval'⟩ := linearizeProduct_spec xs hxs hover' h
    refine ⟨hover'', fun ρ => ?_⟩
    obtain ⟨vs, hvs, hprod⟩ := hval' ρ
    refine ⟨e.eval ρ :: vs, by rw [valueAll, hval, hvs]; rfl, ?_⟩
    rw [hprod, heval, List.prod_cons, mul_assoc]

end

theorem linearize_canonical {e : Expr} (h : linearize e = some f) : f.Canonical :=
  (linearize_spec (V := fun _ => True) e (fun _ _ => trivial) h).1.canonical

end Linearize

namespace Lowering

variable {state state' state'' : Lowering} {base : String} {taken : List String} {d : Int}

theorem variant_succ (n : Nat) : variant base (n + 1) = base ++ ("_" ++ Nat.repr (n + 1)) := by
  have htext : Decimal.text (n + 1) = Nat.repr (n + 1) := by
    rw [Decimal.text, if_neg (by omega)]
    rfl
  rw [variant, htext, String.append_assoc]

theorem variant_succ_ne (n : Nat) : variant base (n + 1) ≠ variant base 0 := by
  rw [variant_succ]
  simp [variant]

theorem variant_injective : Injective (variant base) := by
  intro m n h
  cases m with
  | zero =>
    cases n with
    | zero => rfl
    | succ n => exact absurd h.symm (variant_succ_ne n)
  | succ m =>
    cases n with
    | zero => exact absurd h (variant_succ_ne m)
    | succ n =>
      have hrepr : Nat.repr (m + 1) = Nat.repr (n + 1) := by simpa [variant_succ] using h
      have hdigits := congrArg (fun s => Nat.ofDigitChars 10 s.toList 0) hrepr
      simpa [Nat.toList_repr, Nat.ofDigitChars_toDigits] using hdigits

theorem freshName_not_mem : freshName taken base ∉ taken := by
  unfold freshName
  cases h : ((List.range (taken.length + 1)).map (variant base)).find?
      fun x => !taken.contains x with
  | some x => simpa using List.find?_some h
  | none =>
    -- More variants than names in use cannot all be in use.
    have hsub : (List.range (taken.length + 1)).map (variant base) ⊆ taken := by
      intro x hx
      simpa using List.find?_eq_none.mp h x hx
    have hlen := (List.Nodup.subperm (List.nodup_range.map variant_injective) hsub).length_le
    simp at hlen

def Holds (state : Lowering) (ρ : String → Int) : Prop := ∀ c ∈ state.constraints, c.Holds ρ

structure Sound (space : Space) (state : Lowering) : Prop where
  names : ∀ x ∈ space.names, x ∈ state.taken
  constraints : ∀ c ∈ state.constraints, c.WellFormed (· ∈ state.taken)

theorem Sound.start : (Lowering.start space).Sound space := ⟨fun _ => id, nofun⟩

theorem start_holds : (Lowering.start space).Holds ρ := nofun

theorem Sound.holds_congr (hs : state.Sound space) (h : ∀ x ∈ state.taken, ρ x = σ x) :
    state.Holds ρ ↔ state.Holds σ :=
  forall₂_congr fun c hc => Constraint.holds_congr (hs.constraints c hc) h

theorem fresh_spec (hs : state.Sound space) (h : state.fresh base = (x, state')) :
    state'.Sound space ∧ x ∉ state.taken ∧ x ∈ state'.taken ∧
      (∀ y, y ∈ state.taken → y ∈ state'.taken) ∧ state'.constraints = state.constraints := by
  cases h
  have hgrow : ∀ y, y ∈ state.taken → y ∈ state.taken ++ [freshName state.taken base] :=
    fun y hy => List.mem_append_left _ hy
  refine ⟨⟨fun y hy => hgrow y (hs.names y hy), fun c hc => (hs.constraints c hc).mono hgrow⟩,
    freshName_not_mem, ?_, hgrow, rfl⟩
  exact List.mem_append_right _ (List.mem_singleton.mpr rfl)

theorem update_of_not_mem {v : Int} (hx : x ∉ taken) : ∀ y ∈ taken, update ρ x v y = ρ y := by
  intro y hy
  rw [update_of_ne]
  rintro rfl
  exact hx hy

structure Extends (state state' : Lowering) : Prop where
  taken : ∀ x ∈ state.taken, x ∈ state'.taken
  holds : ∀ ρ, state'.Holds ρ → state.Holds ρ
  exists_holds : ∀ ρ, state.Holds ρ → ∃ σ, (∀ x ∈ state.taken, σ x = ρ x) ∧ state'.Holds σ

theorem Extends.refl : state.Extends state :=
  ⟨fun _ => id, fun _ => id, fun ρ hρ => ⟨ρ, fun _ _ => rfl, hρ⟩⟩

theorem Extends.trans (h : state.Extends state') (h' : state'.Extends state'') :
    state.Extends state'' := by
  refine ⟨fun x hx => h'.taken x (h.taken x hx), fun ρ hρ => h.holds ρ (h'.holds ρ hρ), ?_⟩
  intro ρ hρ
  obtain ⟨σ, hσ, hσ'⟩ := h.exists_holds ρ hρ
  obtain ⟨τ, hτ, hτ'⟩ := h'.exists_holds σ hσ'
  exact ⟨τ, fun x hx => (hτ x (h.taken x hx)).trans (hσ x hx), hτ'⟩

theorem overPositive_spec {n : Affine} {m : Int} (he : e.Over V) (hd : d ≠ 0)
    (h : overPositive e d = .ok (n, m)) :
    n.Over V ∧ 0 < m ∧ ∀ ρ, (e.eval ρ).fdiv d = n.eval ρ / m := by
  unfold overPositive at h
  split_ifs at h with hpos
  · cases h
    exact ⟨he, hpos, fun ρ => Int.fdiv_eq_ediv_of_nonneg _ hpos.le⟩
  · simp only [bind_eq_ok, exact_eq_ok_iff] at h
    obtain ⟨n', hn', m', ⟨-, rfl⟩, h⟩ := h
    cases h
    obtain ⟨hover, heval⟩ := Affine.neg_spec he hn'
    have hm : 0 < -d := by omega
    refine ⟨hover, hm, fun ρ => ?_⟩
    rw [heval, ← Int.fdiv_eq_ediv_of_nonneg _ hm.le, Int.neg_fdiv_neg]

structure Lowered (space : Space) (state state' : Lowering) (f : Affine) : Prop where
  sound : state'.Sound space
  grows : state.Extends state'
  form : f.Over (· ∈ state'.taken)

theorem Lowered.trans (h : Lowered space state state' e) (h' : Lowered space state' state'' f) :
    Lowered space state state'' f :=
  ⟨h'.sound, h.grows.trans h'.grows, h'.form⟩

/-- The next state has one more name, a helper that is pinned to the quotient of a form over the
names in use before. -/
structure Pins (state state' : Lowering) (q : String) (num : Affine) (d : Int) : Prop where
  fresh : q ∉ state.taken
  taken : state'.taken = state.taken ++ [q]
  helpers : state'.helpers = state.helpers ++ [q]
  form : num.Over (· ∈ state.taken)
  holds : ∀ ρ, state'.Holds ρ ↔ state.Holds ρ ∧ ρ q = (num.eval ρ).fdiv d

theorem Pins.extends {q : String} (hs : state.Sound space) (h : Pins state state' q e d) :
    state.Extends state' := by
  refine ⟨fun x hx => h.taken ▸ List.mem_append_left _ hx, fun ρ hρ => ((h.holds ρ).mp hρ).1, ?_⟩
  intro ρ hρ
  -- The helper is new, so giving it the quotient leaves the earlier constraints as they are.
  have hsame := update_of_not_mem (ρ := ρ) (v := (e.eval ρ).fdiv d) h.fresh
  refine ⟨_, hsame, (h.holds _).mpr ⟨(hs.holds_congr hsame).mpr hρ, ?_⟩⟩
  rw [update_self, h.form.eval_congr hsame]

theorem quotient_pins (hs : state.Sound space) (he : e.Over (· ∈ state.taken)) (hd : d ≠ 0)
    (h : state.quotient e d = .ok (f, state')) :
    ∃ q, f = .var q ∧ state'.Sound space ∧ Pins state state' q e d := by
  unfold quotient at h
  cases hfresh : state.fresh "_q" with
  | mk q next =>
  rw [hfresh] at h
  obtain ⟨hnext, hq, hqmem, hgrow, hconstraints⟩ := fresh_spec hs hfresh
  simp only [bind_eq_ok] at h
  obtain ⟨⟨n, m⟩, hnm, below, hbelow, top, htop, above, habove, h⟩ := h
  cases h
  obtain ⟨hn, hm, hdiv⟩ := overPositive_spec he hd hnm
  have hterm : (Affine.term q m).Over (· ∈ next.taken) := .term hqmem m
  obtain ⟨hbwf, hbiff⟩ := Constraint.le_spec hterm (hn.mono hgrow) hbelow
  obtain ⟨htover, hteval⟩ := Affine.addConstant_spec hterm htop
  obtain ⟨hawf, haiff⟩ := Constraint.le_spec (hn.mono hgrow) htover habove
  have hpair (ρ : String → Int) : below.Holds ρ ∧ above.Holds ρ ↔ n.eval ρ / m = ρ q := by
    rw [hbiff, haiff, hteval, Affine.eval_term, Int.ediv_eq_iff_of_pos hm, mul_comm]
    omega
  refine ⟨q, rfl, ⟨hnext.names, List.forall_mem_append.mpr ⟨hnext.constraints, ?_⟩⟩, hq, ?_, ?_, he,
    fun ρ => ?_⟩
  · exact List.forall_mem_cons.mpr ⟨hbwf, List.forall_mem_singleton.mpr hawf⟩
  · cases hfresh
    rfl
  · cases hfresh
    rfl
  · rw [Holds, List.forall_mem_append, List.forall_mem_cons, List.forall_mem_singleton, hpair,
      hconstraints, hdiv, eq_comm (a := ρ q)]
    exact Iff.rfl

theorem quotient_spec (hs : state.Sound space) (he : e.Over (· ∈ state.taken)) (hd : d ≠ 0)
    (h : state.quotient e d = .ok (f, state')) :
    Lowered space state state' f ∧ ∀ ρ, state'.Holds ρ → f.eval ρ = (e.eval ρ).fdiv d := by
  obtain ⟨q, rfl, hsound, hpins⟩ := quotient_pins hs he hd h
  have hmem : q ∈ state'.taken := hpins.taken ▸ List.mem_append_right _ (List.mem_singleton.mpr rfl)
  refine ⟨⟨hsound, hpins.extends hs, .term hmem 1⟩, fun ρ hρ => ?_⟩
  rw [Affine.var, Affine.eval_term, one_mul, ((hpins.holds ρ).mp hρ).2]

theorem quotient_of_divide? (h : state.divide? e g = .ok (some (f, state'))) :
    g.isConstant = true ∧ g.constant ≠ 0 ∧ state.quotient e g.constant = .ok (f, state') := by
  unfold divide? at h
  split_ifs at h with hden
  · cases h
  · simp only [Bool.or_eq_true, Bool.not_eq_true', beq_iff_eq, not_or, Bool.not_eq_false] at hden
    obtain ⟨⟨f', state''⟩, hq, h⟩ := map_eq_ok.mp h
    cases h
    exact ⟨hden.1, hden.2, hq⟩

theorem divide?_spec (hs : state.Sound space) (he : e.Over (· ∈ state.taken))
    (h : state.divide? e g = .ok (some (f, state'))) :
    Lowered space state state' f ∧ g.constant ≠ 0 ∧ (∀ ρ, g.eval ρ = g.constant) ∧
      ∀ ρ, state'.Holds ρ → f.eval ρ = (e.eval ρ).fdiv g.constant := by
  obtain ⟨hconst, hne, hq⟩ := quotient_of_divide? h
  obtain ⟨hlow, hval⟩ := quotient_spec hs he hne hq
  exact ⟨hlow, hne, fun ρ => Affine.eval_of_isConstant hconst, hval⟩

theorem Lowered.divide {den : Affine} (he : Lowered space state state' e)
    (hden : Lowered space state' state'' den) {last : Lowering}
    (h : state''.divide? e den = .ok (some (f, last))) :
    Lowered space state last f ∧ e.Over (· ∈ last.taken) ∧ ∀ ρ, last.Holds ρ →
      state'.Holds ρ ∧ state''.Holds ρ ∧ den.eval ρ ≠ 0 ∧ den.eval ρ = den.constant ∧
        f.eval ρ = (e.eval ρ).fdiv (den.eval ρ) := by
  have hform := he.form.mono hden.grows.taken
  obtain ⟨hlow, hne, hconst, hval⟩ := divide?_spec hden.sound hform h
  refine ⟨(he.trans hden).trans hlow, hform.mono hlow.grows.taken, fun ρ hρ => ?_⟩
  have hρ' := hlow.grows.holds ρ hρ
  rw [hconst]
  exact ⟨hden.grows.holds ρ hρ', hρ', hne, rfl, hval ρ hρ⟩

end Lowering

section Lower

open Lowering

section Inversion

variable {state state' : Lowering} {a b y : Expr} {ys : List Expr}

theorem lower_neg (h : lower space state (neg y) = .ok (some (f, state'))) :
    ∃ e, lower space state y = .ok (some (e, state')) ∧ e.neg = .ok f := by
  obtain ⟨_ | ⟨e, mid⟩, he, h⟩ := bind_eq_ok.mp h
  · cases h
  · obtain ⟨_, hf, h⟩ := bind_eq_ok.mp h
    cases h
    exact ⟨e, he, hf⟩

theorem lower_floorDiv (h : lower space state (floorDiv a b) = .ok (some (f, state'))) :
    ∃ num mid den last, lower space state a = .ok (some (num, mid)) ∧
      lower space mid b = .ok (some (den, last)) ∧
      last.divide? num den = .ok (some (f, state')) := by
  obtain ⟨_ | ⟨num, mid⟩, hnum, h⟩ := bind_eq_ok.mp h
  · cases h
  · obtain ⟨_ | ⟨den, last⟩, hden, h⟩ := bind_eq_ok.mp h
    · cases h
    · exact ⟨num, mid, den, last, hnum, hden, h⟩

theorem lower_remainder (h : lower space state (remainder a b) = .ok (some (f, state'))) :
    ∃ num mid den last q multiple, lower space state a = .ok (some (num, mid)) ∧
      lower space mid b = .ok (some (den, last)) ∧
      last.divide? num den = .ok (some (q, state')) ∧
      q.scale den.constant = .ok multiple ∧ num.sub multiple = .ok f := by
  obtain ⟨_ | ⟨num, mid⟩, hnum, h⟩ := bind_eq_ok.mp h
  · cases h
  · obtain ⟨_ | ⟨den, last⟩, hden, h⟩ := bind_eq_ok.mp h
    · cases h
    · obtain ⟨_ | ⟨q, _⟩, hq, h⟩ := bind_eq_ok.mp h
      · cases h
      · obtain ⟨multiple, hmultiple, h⟩ := bind_eq_ok.mp h
        obtain ⟨_, hf, h⟩ := bind_eq_ok.mp h
        cases h
        exact ⟨num, mid, den, last, q, multiple, hnum, hden, hq, hmultiple, hf⟩

theorem lowerSum_cons (h : lowerSum space state acc (y :: ys) = .ok (some (f, state'))) :
    ∃ e mid next, lower space state y = .ok (some (e, mid)) ∧ acc.add e = .ok next ∧
      lowerSum space mid next ys = .ok (some (f, state')) := by
  obtain ⟨_ | ⟨e, mid⟩, he, h⟩ := bind_eq_ok.mp h
  · cases h
  · obtain ⟨next, hnext, h⟩ := bind_eq_ok.mp h
    exact ⟨e, mid, next, he, hnext, h⟩

theorem lowerProduct_cons (h : lowerProduct space state acc (y :: ys) = .ok (some (f, state'))) :
    ∃ e mid next, lower space state y = .ok (some (e, mid)) ∧
      affineProduct? acc e = .ok (some next) ∧
      lowerProduct space mid next ys = .ok (some (f, state')) := by
  obtain ⟨_ | ⟨e, mid⟩, he, h⟩ := bind_eq_ok.mp h
  · cases h
  · obtain ⟨_ | next, hnext, h⟩ := bind_eq_ok.mp h
    · cases h
    · exact ⟨e, mid, next, he, hnext, h⟩

theorem lowerIndices_cons {k : Nat} {found : List (String × Constraint)}
    (h : lowerIndices space k state (y :: ys) = .ok (some (found, state'))) :
    ∃ e mid axis next c rest, lower space state y = .ok (some (e, mid)) ∧
      mid.fresh ("_acc" ++ Decimal.text k) = (axis, next) ∧
      Constraint.equal (.var axis) e = .ok c ∧
      lowerIndices space (k + 1) next ys = .ok (some (rest, state')) ∧
      found = (axis, c) :: rest := by
  obtain ⟨_ | ⟨e, mid⟩, he, h⟩ := bind_eq_ok.mp h
  · cases h
  · cases hfresh : mid.fresh ("_acc" ++ Decimal.text k) with
    | mk axis next =>
    simp only [hfresh] at h
    obtain ⟨c, hc, h⟩ := bind_eq_ok.mp h
    obtain ⟨_ | ⟨rest, _⟩, hrest, h⟩ := bind_eq_ok.mp h
    · cases h
    · cases h
      exact ⟨e, mid, axis, next, c, rest, he, hfresh, hc, hrest, rfl⟩

end Inversion

mutual

theorem lower_spec : ∀ (x : Expr) {state state' : Lowering} {f : Affine}, state.Sound space →
    lower space state x = .ok (some (f, state')) →
    Lowered space state state' f ∧ ∀ ρ, state'.Holds ρ → value ρ x = some (f.eval ρ)
  | int n, state, state', f, hs, h => by
    cases h
    exact ⟨⟨hs, .refl, .const n⟩, fun ρ _ => by rw [value, Affine.eval_const]⟩
  | var x, state, state', f, hs, h => by
    unfold lower at h
    split_ifs at h with hx
    · cases h
      refine ⟨⟨hs, .refl, .term (hs.names x (Space.contains_iff.mp hx)) 1⟩, fun ρ _ => ?_⟩
      rw [value, Affine.var, Affine.eval_term, one_mul]
    · cases h
  | sum xs, state, state', f, hs, h => by
    obtain ⟨hlow, hval⟩ := lowerSum_spec xs hs (.const 0) h
    refine ⟨hlow, fun ρ hρ => ?_⟩
    obtain ⟨vs, hvs, heval⟩ := hval ρ hρ
    rw [value, hvs, heval, Affine.eval_const, zero_add]
    rfl
  | product xs, state, state', f, hs, h => by
    obtain ⟨hlow, hval⟩ := lowerProduct_spec xs hs (.const 1) h
    refine ⟨hlow, fun ρ hρ => ?_⟩
    obtain ⟨vs, hvs, heval⟩ := hval ρ hρ
    rw [value, hvs, heval, Affine.eval_const, one_mul]
    rfl
  | neg x, state, state', f, hs, h => by
    obtain ⟨e, he, hneg⟩ := lower_neg h
    obtain ⟨hlow, hval⟩ := lower_spec x hs he
    obtain ⟨hover, heval⟩ := Affine.neg_spec hlow.form hneg
    refine ⟨⟨hlow.sound, hlow.grows, hover⟩, fun ρ hρ => ?_⟩
    rw [value, hval ρ hρ, heval]
    rfl
  | floorDiv a b, state, state', f, hs, h => by
    obtain ⟨num, mid, den, last, hnum, hden, hdiv⟩ := lower_floorDiv h
    obtain ⟨hlow, hval⟩ := lower_spec a hs hnum
    obtain ⟨hlow', hval'⟩ := lower_spec b hlow.sound hden
    obtain ⟨hall, -, hq⟩ := hlow.divide hlow' hdiv
    refine ⟨hall, fun ρ hρ => ?_⟩
    obtain ⟨hmid, hlast, hne, -, heval⟩ := hq ρ hρ
    rw [value, hval ρ hmid, hval' ρ hlast, heval]
    simp [hne]
  | remainder a b, state, state', f, hs, h => by
    obtain ⟨num, mid, den, last, q, multiple, hnum, hden, hdiv, hscale, hsub⟩ := lower_remainder h
    obtain ⟨hlow, hval⟩ := lower_spec a hs hnum
    obtain ⟨hlow', hval'⟩ := lower_spec b hlow.sound hden
    obtain ⟨hall, hform, hq⟩ := hlow.divide hlow' hdiv
    obtain ⟨hover, heval⟩ := Affine.scale_spec hall.form hscale
    obtain ⟨hover', heval'⟩ := Affine.sub_spec hform hover hsub
    refine ⟨⟨hall.sound, hall.grows, hover'⟩, fun ρ hρ => ?_⟩
    obtain ⟨hmid, hlast, hne, hconst, hquot⟩ := hq ρ hρ
    rw [value, hval ρ hmid, hval' ρ hlast, heval', heval, hquot, ← hconst]
    simp [hne, Int.fmod_def]
  | subscript x index, state, state', f, hs, h => by
    cases h
  | call x args, state, state', f, hs, h => by
    cases h

theorem lowerSum_spec : ∀ (xs : List Expr) {state state' : Lowering} {acc f : Affine},
    state.Sound space → acc.Over (· ∈ state.taken) →
    lowerSum space state acc xs = .ok (some (f, state')) → Lowered space state state' f ∧
      ∀ ρ, state'.Holds ρ → ∃ vs, valueAll ρ xs = some vs ∧ f.eval ρ = acc.eval ρ + vs.sum
  | [], state, state', acc, f, hs, hacc, h => by
    cases h
    exact ⟨⟨hs, .refl, hacc⟩, fun ρ _ => ⟨[], rfl, by simp⟩⟩
  | x :: xs, state, state', acc, f, hs, hacc, h => by
    obtain ⟨e, mid, next, he, hnext, h⟩ := lowerSum_cons h
    obtain ⟨hlow, hval⟩ := lower_spec x hs he
    obtain ⟨hover, heval⟩ := Affine.add_spec (hacc.mono hlow.grows.taken) hlow.form hnext
    obtain ⟨hlow', hval'⟩ := lowerSum_spec xs hlow.sound hover h
    refine ⟨hlow.trans hlow', fun ρ hρ => ?_⟩
    obtain ⟨vs, hvs, hsum⟩ := hval' ρ hρ
    refine ⟨e.eval ρ :: vs, ?_, by rw [hsum, heval, List.sum_cons, add_assoc]⟩
    rw [valueAll, hval ρ (hlow'.grows.holds ρ hρ), hvs]
    rfl

theorem lowerProduct_spec : ∀ (xs : List Expr) {state state' : Lowering} {acc f : Affine},
    state.Sound space → acc.Over (· ∈ state.taken) →
    lowerProduct space state acc xs = .ok (some (f, state')) → Lowered space state state' f ∧
      ∀ ρ, state'.Holds ρ → ∃ vs, valueAll ρ xs = some vs ∧ f.eval ρ = acc.eval ρ * vs.prod
  | [], state, state', acc, f, hs, hacc, h => by
    cases h
    exact ⟨⟨hs, .refl, hacc⟩, fun ρ _ => ⟨[], rfl, by simp⟩⟩
  | x :: xs, state, state', acc, f, hs, hacc, h => by
    obtain ⟨e, mid, next, he, hnext, h⟩ := lowerProduct_cons h
    obtain ⟨hlow, hval⟩ := lower_spec x hs he
    obtain ⟨hover, heval⟩ := affineProduct?_spec (hacc.mono hlow.grows.taken) hlow.form hnext
    obtain ⟨hlow', hval'⟩ := lowerProduct_spec xs hlow.sound hover h
    refine ⟨hlow.trans hlow', fun ρ hρ => ?_⟩
    obtain ⟨vs, hvs, hprod⟩ := hval' ρ hρ
    refine ⟨e.eval ρ :: vs, ?_, by rw [hprod, heval, List.prod_cons, mul_assoc]⟩
    rw [valueAll, hval ρ (hlow'.grows.holds ρ hρ), hvs]
    rfl

end

mutual

theorem lower_reads : ∀ (x : Expr) {state state' : Lowering} {f : Affine},
    lower space state x = .ok (some (f, state')) → ∀ y ∈ x.reads, y ∈ space.names
  | int n, _, _, _, _ => nofun
  | var x, _, _, _, h => by
    unfold lower at h
    split_ifs at h with hx
    · exact List.forall_mem_singleton.mpr (Space.contains_iff.mp hx)
    · cases h
  | sum xs, _, _, _, h => lowerSum_reads xs h
  | product xs, _, _, _, h => lowerProduct_reads xs h
  | neg x, _, _, _, h => by
    obtain ⟨_, he, -⟩ := lower_neg h
    exact lower_reads x he
  | floorDiv a b, _, _, _, h => by
    obtain ⟨_, _, _, _, hnum, hden, -⟩ := lower_floorDiv h
    exact List.forall_mem_append.mpr ⟨lower_reads a hnum, lower_reads b hden⟩
  | remainder a b, _, _, _, h => by
    obtain ⟨_, _, _, _, _, _, hnum, hden, -⟩ := lower_remainder h
    exact List.forall_mem_append.mpr ⟨lower_reads a hnum, lower_reads b hden⟩
  | subscript _ _, _, _, _, h => by cases h
  | call _ _, _, _, _, h => by cases h

theorem lowerSum_reads : ∀ (xs : List Expr) {state state' : Lowering} {acc f : Affine},
    lowerSum space state acc xs = .ok (some (f, state')) → ∀ y ∈ readsAll xs, y ∈ space.names
  | [], _, _, _, _, _ => nofun
  | x :: xs, _, _, _, _, h => by
    obtain ⟨_, _, _, he, -, h⟩ := lowerSum_cons h
    exact List.forall_mem_append.mpr ⟨lower_reads x he, lowerSum_reads xs h⟩

theorem lowerProduct_reads : ∀ (xs : List Expr) {state state' : Lowering} {acc f : Affine},
    lowerProduct space state acc xs = .ok (some (f, state')) → ∀ y ∈ readsAll xs, y ∈ space.names
  | [], _, _, _, _, _ => nofun
  | x :: xs, _, _, _, _, h => by
    obtain ⟨_, _, _, he, -, h⟩ := lowerProduct_cons h
    exact List.forall_mem_append.mpr ⟨lower_reads x he, lowerProduct_reads xs h⟩

end

/-- The axes of lowered indices carry the values of the indices, and such axes and helpers exist for
every assignment of the names in use before. -/
structure Axes (space : Space) (state state' : Lowering) (found : List (String × Constraint))
    (index : List Expr) : Prop where
  sound : state'.Sound space
  length : found.length = index.length
  taken : ∀ x ∈ state.taken, x ∈ state'.taken
  constraints : ∀ p ∈ found, p.2.WellFormed (· ∈ state'.taken)
  fresh : ∀ p ∈ found, p.1 ∉ state.taken
  reads : ∀ x ∈ index, ∀ y ∈ x.reads, y ∈ space.names
  holds : ∀ ρ, state'.Holds ρ → state.Holds ρ
  value : ∀ ρ, state'.Holds ρ → (∀ p ∈ found, p.2.Holds ρ) →
    index.map (Expr.value ρ) = found.map fun p => some (ρ p.1)
  exists_holds : ∀ ρ, state.Holds ρ → ∃ σ, (∀ x ∈ state.taken, σ x = ρ x) ∧ state'.Holds σ ∧
    ∀ p ∈ found, p.2.Holds σ

theorem lowerIndices_spec {index : List Expr} {k : Nat} {state state' : Lowering}
    {found : List (String × Constraint)} (hs : state.Sound space)
    (h : lowerIndices space k state index = .ok (some (found, state'))) :
    Axes space state state' found index := by
  induction index generalizing k state found with
  | nil =>
    cases h
    exact ⟨hs, rfl, fun _ => id, nofun, nofun, nofun, fun _ => id, fun _ _ _ => rfl,
      fun ρ hρ => ⟨ρ, fun _ _ => rfl, hρ, nofun⟩⟩
  | cons x index ih =>
    obtain ⟨e, mid, axis, next, c, rest, he, hfresh, hc, htail, rfl⟩ := lowerIndices_cons h
    obtain ⟨hlow, hval⟩ := lower_spec x hs he
    obtain ⟨hsound, hnew, haxis, hgrow, hcs⟩ := fresh_spec hlow.sound hfresh
    obtain ⟨hcwf, hciff⟩ :=
      Constraint.equal_spec (Affine.Over.term haxis 1) (hlow.form.mono hgrow) hc
    have hceval (ρ : String → Int) : c.Holds ρ ↔ ρ axis = e.eval ρ := by
      rw [hciff, Affine.eval_term, one_mul]
    have hholds (ρ : String → Int) : next.Holds ρ ↔ mid.Holds ρ := by
      rw [Lowering.Holds, hcs, Lowering.Holds]
    have htaken : ∀ y ∈ state.taken, y ∈ next.taken := fun y hy => hgrow y (hlow.grows.taken y hy)
    have hrest := ih hsound htail
    refine ⟨hrest.sound, congrArg (· + 1) hrest.length, fun y hy => hrest.taken y (htaken y hy),
      List.forall_mem_cons.mpr ⟨hcwf.mono hrest.taken, hrest.constraints⟩,
      List.forall_mem_cons.mpr ⟨fun hy => hnew (hlow.grows.taken _ hy), fun p hp hy => ?_⟩,
      List.forall_mem_cons.mpr ⟨lower_reads x he, hrest.reads⟩, fun ρ hρ => ?_, ?_, ?_⟩
    · exact hrest.fresh p hp (htaken _ hy)
    · exact hlow.grows.holds ρ ((hholds ρ).mp (hrest.holds ρ hρ))
    · intro ρ hρ hfound
      obtain ⟨hcρ, hfound⟩ := List.forall_mem_cons.mp hfound
      rw [List.map_cons, List.map_cons, hrest.value ρ hρ hfound,
        hval ρ ((hholds ρ).mp (hrest.holds ρ hρ)), (hceval ρ).mp hcρ]
    · intro ρ hρ
      obtain ⟨σ₁, hσ₁, hσ₁'⟩ := hlow.grows.exists_holds ρ hρ
      -- The axis is new, so giving it the value of the index changes nothing before it.
      have hsame := update_of_not_mem (ρ := σ₁) (v := e.eval σ₁) hnew
      have hnext : next.Holds (update σ₁ axis (e.eval σ₁)) :=
        (hholds _).mpr ((hlow.sound.holds_congr hsame).mpr hσ₁')
      obtain ⟨σ, hσ, hσ', hfound⟩ := hrest.exists_holds _ hnext
      refine ⟨σ, fun y hy => ?_, hσ', List.forall_mem_cons.mpr ⟨?_, hfound⟩⟩
      · rw [hσ y (htaken y hy), hsame y (hlow.grows.taken y hy), hσ₁ y hy]
      · rw [hceval, hσ axis haxis, update_self,
          hlow.form.eval_congr fun y hy => (hσ y (hgrow y hy)).trans (hsame y hy)]

end Lower

end LoopAudit.Expr
