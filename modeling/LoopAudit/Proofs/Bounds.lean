import LoopAudit.Check.Access
import LoopAudit.Proofs.AccessRange
import LoopAudit.Proofs.Exactness
import LoopAudit.Proofs.Parts

/-! The check of array bounds. Where it passes, every subscript that it can judge stays within its
extents at every integer point; where it reports a reference, some point leads outside. -/

namespace LoopAudit

open Fallible

namespace Expr

variable {aggregate : String} {index xs : List Expr} {e : Expr} {p : String × List Expr}

theorem mem_subscriptsAll : p ∈ subscriptsAll xs ↔ ∃ x ∈ xs, p ∈ x.subscripts := by
  induction xs with
  | nil => simp [subscriptsAll]
  | cons x xs ih => simp [subscriptsAll, ih]

theorem mem_subscripts_iff_parts : (aggregate, index) ∈ e.subscripts ↔
    e = subscript aggregate index ∨ ∃ x ∈ e.parts, (aggregate, index) ∈ x.subscripts := by
  cases e <;> simp [subscripts, parts, mem_subscriptsAll, eq_comm]

theorem occurs_of_mem_subscripts (e : Expr) (h : (aggregate, index) ∈ e.subscripts) :
    (subscript aggregate index).Occurs e := by
  rcases mem_subscripts_iff_parts.mp h with rfl | ⟨x, hx, h⟩
  · exact .here
  · exact .inside hx (occurs_of_mem_subscripts x h)
termination_by e
decreasing_by exact sizeOf_parts hx

theorem mem_subscripts :
    (aggregate, index) ∈ e.subscripts ↔ (subscript aggregate index).Occurs e := by
  refine ⟨occurs_of_mem_subscripts e, fun h => ?_⟩
  induction h with
  | here => exact mem_subscripts_iff_parts.mpr (.inl rfl)
  | inside hx _ ih => exact mem_subscripts_iff_parts.mpr (.inr ⟨_, hx, ih⟩)

end Expr

def Instruction.Accesses (insn : Instruction) (aggregate : String) (index : List Expr) : Prop :=
  (Expr.subscript aggregate index).Occurs insn.expression ∨
    (Expr.subscript aggregate index).Occurs insn.assignee

def Kernel.HasShape (k : Kernel) (name : String) (shape : List Expr) : Prop :=
  (∃ a, k.argument? name = some a ∧ a.shape = some shape) ∨
    k.argument? name = none ∧ ∃ t, k.temporary? name = some t ∧ t.shape = shape

namespace Check

variable {α : Type} {k : Kernel} {insn : Instruction} {available dims : List String}
  {domain bounds result : IntegerSet} {aggregate : String} {index shape extents : List Expr}
  {ρ : String → Int}

theorem algebra_bind_eq_ok {β : Type} {r : Except SetError α} {f : α → Except CheckFailure β}
    {b : β} : (algebra r >>= f) = .ok b ↔ ∃ a, r = .ok a ∧ f a = .ok b := by
  rw [bind_eq_ok]
  cases r <;> simp [algebra, Except.mapError]

theorem algebra_bind_eq_error {β : Type} {r : Except SetError α} {f : α → Except CheckFailure β}
    {e : CheckFailure} (h : (algebra r >>= f) = .error e) (he : ∀ fault, e ≠ .setAlgebra fault) :
    ∃ a, r = .ok a ∧ f a = .error e := by
  cases r with
  | ok a => exact ⟨a, rfl, h⟩
  | error fault =>
    cases h
    exact absurd rfl (he fault)

theorem algebra_bind_eq_outOfBounds {r : Except SetError α} {f : α → Verdict}
    {id reference : String} (h : (algebra r >>= f) = .error (.outOfBounds id reference)) :
    ∃ a, r = .ok a ∧ f a = .error (.outOfBounds id reference) :=
  algebra_bind_eq_error h nofun

theorem mem_subscriptsOf :
    (aggregate, index) ∈ subscriptsOf insn ↔ insn.Accesses aggregate index := by
  simp [subscriptsOf, Instruction.Accesses, Expr.mem_subscripts]

theorem extents?_eq_some : extents? k aggregate = some shape ↔ k.HasShape aggregate shape := by
  unfold extents? Kernel.HasShape
  cases k.argument? aggregate <;> simp

def InBounds (ρ : String → Int) (index shape : List Expr) : Prop :=
  ∀ (n : Nat) (i w : Expr), index[n]? = some i → shape[n]? = some w →
    ∃ v u, i.value ρ = some v ∧ w.value ρ = some u ∧ 0 ≤ v ∧ v < u

def OutOfBounds (ρ : String → Int) (index shape : List Expr) : Prop :=
  ∃ (n : Nat) (i w : Expr) (v u : Int), index[n]? = some i ∧ shape[n]? = some w ∧
    i.value ρ = some v ∧ w.value ρ = some u ∧ (v < 0 ∨ u ≤ v)

def Within (ρ : String → Int) (dims : List String) (extents : List Expr) : Prop :=
  ∀ (n : Nat) (d : String) (w : Expr), dims[n]? = some d → extents[n]? = some w →
    ∃ u, w.value ρ = some u ∧ 0 ≤ ρ d ∧ ρ d < u

theorem within_cons {d : String} {w : Expr} :
    Within ρ (d :: dims) (w :: extents) ↔
      (∃ u, w.value ρ = some u ∧ 0 ≤ ρ d ∧ ρ d < u) ∧ Within ρ dims extents := by
  unfold Within
  rw [← Nat.and_forall_add_one]
  simp

theorem withinExtents_spec (hb : bounds.WellFormed)
    (h : withinExtents bounds dims extents = .ok (some result)) :
    result.WellFormed ∧ (∀ x ∈ result.space.names, x ∈ bounds.space.names) ∧
      (∀ w ∈ extents, ∀ ρ, ∃ u, w.value ρ = some u) ∧
        ∀ ρ, result.Mem ρ ↔ bounds.Mem ρ ∧ Within ρ dims extents := by
  induction extents generalizing bounds dims with
  | nil =>
    cases dims <;>
    · cases h
      exact ⟨hb, fun _ => id, nofun, fun ρ => by simp [Within]⟩
  | cons w extents ih =>
    cases dims with
    | nil => cases h
    | cons d dims =>
      unfold withinExtents at h
      split at h
      · cases h
      · next hi hlin =>
        obtain ⟨slab, hslab, h⟩ := bind_eq_ok.mp h
        obtain ⟨next, hnext, h⟩ := bind_eq_ok.mp h
        obtain ⟨hover, hval⟩ := Expr.linearize_spec (V := fun _ => True) w (fun _ _ => trivial) hlin
        obtain ⟨hswf, hsspace, hsmem⟩ :=
          IntegerSet.slab_spec hb.distinct (.const 0) hover trivial hslab
        obtain ⟨hnwf, hnspace, hnmem⟩ := IntegerSet.intersect_spec hb hswf hnext
        obtain ⟨hwf, hnames, hvals, hmem⟩ := ih hnwf h
        refine ⟨hwf, fun x hx => ?_,
          List.forall_mem_cons.mpr ⟨fun ρ => ⟨_, hval ρ⟩, hvals⟩, fun ρ => ?_⟩
        · have hx' := hnames x hx
          rw [hnspace, Space.mem_names_align, hsspace, or_self] at hx'
          exact hx'
        · rw [hmem, hnmem, hsmem, within_cons, hval, and_assoc, Affine.eval_const]
          simp

theorem withinExtents_ne_none (hlen : extents.length ≤ dims.length)
    (hlinear : ∀ w ∈ extents, w.linearize ≠ none) :
    withinExtents bounds dims extents ≠ .ok none := by
  induction extents generalizing bounds dims with
  | nil => cases dims <;> simp [withinExtents]
  | cons w extents ih =>
    obtain ⟨hw, hlinear⟩ := List.forall_mem_cons.mp hlinear
    cases dims with
    | nil => cases hlen
    | cons d dims =>
      intro h
      unfold withinExtents at h
      split at h
      · next hnone => exact hw hnone
      · obtain ⟨slab, -, h⟩ := bind_eq_ok.mp h
        obtain ⟨next, -, h⟩ := bind_eq_ok.mp h
        exact ih (Nat.le_of_succ_le_succ hlen) hlinear h

section Subscript

variable {axes : List String} {σ : String → Int} {range : IntegerSet} {id reference : String}

theorem exists_axis {n : Nat} {i : Expr}
    (himage : index.map (Expr.value ρ) = axes.map fun a => some (σ a)) (hi : index[n]? = some i) :
    ∃ a, axes[n]? = some a ∧ i.value ρ = some (σ a) := by
  have hn := congrArg (·[n]?) himage
  simp only [List.getElem?_map, hi, Option.map_some] at hn
  obtain ⟨a, ha, hai⟩ := Option.map_eq_some_iff.mp hn.symm
  exact ⟨a, ha, hai.symm⟩

theorem prefix_getElem? {xs ys : List α} {n : Nat} {a : α} (h : xs.IsPrefix ys)
    (ha : xs[n]? = some a) : ys[n]? = some a := by
  obtain ⟨zs, rfl⟩ := h
  rw [List.getElem?_append_left (List.getElem?_eq_some_iff.mp ha).1, ha]

theorem inBounds_of_within (hdims : axes.IsPrefix dims)
    (himage : index.map (Expr.value ρ) = axes.map fun a => some (σ a))
    (hsame : ∀ w ∈ shape, w.value ρ = w.value σ) (h : Within σ dims shape) :
    InBounds ρ index shape := by
  intro n i w hi hw
  obtain ⟨a, ha, hval⟩ := exists_axis himage hi
  obtain ⟨u, hu, hlow, hhigh⟩ := h n a w (prefix_getElem? hdims ha) hw
  refine ⟨σ a, u, hval, ?_, hlow, hhigh⟩
  rw [hsame w (List.mem_of_getElem? hw), hu]

theorem outOfBounds_of_not_within (hdims : axes.IsPrefix dims)
    (himage : index.map (Expr.value ρ) = axes.map fun a => some (ρ a))
    (hlen : index.length = shape.length) (hvals : ∀ w ∈ shape, ∃ u, w.value ρ = some u)
    (h : ¬ Within ρ dims shape) : OutOfBounds ρ index shape := by
  unfold Within at h
  push Not at h
  obtain ⟨n, d, w, hd, hw, hout⟩ := h
  have hn : n < index.length := hlen ▸ (List.getElem?_eq_some_iff.mp hw).1
  have hi : index[n]? = some index[n] := List.getElem?_eq_getElem hn
  obtain ⟨a, ha, hval⟩ := exists_axis himage hi
  obtain rfl : a = d := Option.some.inj ((prefix_getElem? hdims ha).symm.trans hd)
  obtain ⟨u, hu⟩ := hvals w (List.mem_of_getElem? hw)
  refine ⟨n, _, w, ρ a, u, hi, hw, hval, hu, ?_⟩
  by_cases hlow : 0 ≤ ρ a
  · exact .inr (hout u hu hlow)
  · exact .inl (not_le.mp hlow)

theorem inBounds_of_subset (himage : Expr.IsImage domain index range axes)
    (hbox : withinExtents (.univ range.space) range.space.dims shape = .ok (some result))
    (hreads : ∀ w ∈ shape, ∀ x ∈ w.reads, x ∈ domain.space.names)
    (hsub : ∀ σ, range.Mem σ → result.Mem σ) (hρ : domain.Mem ρ) : InBounds ρ index shape := by
  obtain ⟨-, -, -, hmem⟩ := withinExtents_spec (.univ himage.wellFormed.distinct) hbox
  obtain ⟨σ, hσ, hrange, hvalues⟩ := himage.reached ρ hρ
  refine inBounds_of_within himage.dims hvalues (fun w hw => ?_) ((hmem σ).mp (hsub σ hrange)).2
  exact Expr.value_congr w fun x hx => (hσ x (hreads w hw x hx)).symm

theorem outOfBounds_of_not_subset (himage : Expr.IsImage domain index range axes)
    (hbox : withinExtents (.univ range.space) range.space.dims shape = .ok (some result))
    (hlen : index.length = shape.length) (hsub : ¬ ∀ σ, range.Mem σ → result.Mem σ) :
    ∃ ρ, domain.Mem ρ ∧ OutOfBounds ρ index shape := by
  obtain ⟨hwf, hnames, hvals, hmem⟩ := withinExtents_spec (.univ himage.wellFormed.distinct) hbox
  push Not at hsub
  obtain ⟨σ, hσ, hout⟩ := hsub
  obtain ⟨ρ, hρ, hdomain, hvalues⟩ := himage.comes σ hσ
  refine ⟨ρ, hdomain, outOfBounds_of_not_within himage.dims ?_ hlen (fun w hw => hvals w hw ρ) ?_⟩
  · rw [hvalues]
    refine List.map_congr_left fun a ha => congrArg some (hρ a ?_).symm
    exact List.mem_append_right _ (himage.dims.subset ha)
  · -- The box does not tell `ρ` from `σ`, since they agree on the names of the range.
    intro hwithin
    refine hout ((hwf.mem_congr fun x hx => hρ x (hnames x hx)).mp ?_)
    exact (hmem ρ).mpr ⟨IntegerSet.mem_univ, hwithin⟩

/-- A subscript and a shape that the check compares: their names are available, the indices can be
lowered over the domain, and the extents are affine. -/
structure Comparable (available : List String) (domain : IntegerSet) (index shape : List Expr) :
    Prop where
  scope : ∀ e ∈ index ++ shape, ∀ x ∈ e.reads, x ∈ available
  lowers : Expr.accessRange domain index ≠ .ok none
  affine : ∀ w ∈ shape, w.linearize ≠ none

theorem inScope_iff : ((index ++ shape).all fun e => e.dependencies.all available.contains) = true ↔
    ∀ e ∈ index ++ shape, ∀ x ∈ e.reads, x ∈ available := by
  rw [List.all_eq_true]
  simp [Expr.dependencies, Names.mem_ofList]

theorem subscriptInBounds_ok (hd : domain.WellFormed)
    (havailable : ∀ x ∈ available, x ∈ domain.space.names)
    (hc : Comparable available domain index shape)
    (h : subscriptInBounds insn available domain aggregate index shape = .ok ()) :
    index.length = shape.length ∧ ∀ ρ, domain.Mem ρ → InBounds ρ index shape := by
  unfold subscriptInBounds at h
  simp only [inScope_iff.mpr hc.scope, Bool.not_true, Bool.false_eq_true, if_false] at h
  split_ifs at h with hlen
  rw [ne_eq, not_not] at hlen
  refine ⟨hlen, fun ρ hρ => ?_⟩
  obtain ⟨_ | range, hrange, h⟩ := algebra_bind_eq_ok.mp h
  · exact absurd hrange hc.lowers
  obtain ⟨axes, himage⟩ := Expr.accessRange_spec hd hrange
  obtain ⟨_ | result, hbox, h⟩ := algebra_bind_eq_ok.mp h
  · -- The range has an axis for every extent, so the box is defined.
    obtain ⟨σ, -, -, hvalues⟩ := himage.reached ρ hρ
    have haxes := congrArg List.length hvalues
    rw [List.length_map, List.length_map, hlen] at haxes
    exact absurd hbox (withinExtents_ne_none (haxes.trans_le himage.dims.length_le) hc.affine)
  obtain ⟨_ | _, hv, h⟩ := algebra_bind_eq_ok.mp h
  · cases h
  have hwf := (withinExtents_spec (.univ himage.wellFormed.distinct) hbox).1
  refine inBounds_of_subset himage hbox (fun w hw x hx => havailable x ?_)
    ((IntegerSet.isSubset_spec himage.wellFormed hwf hv).mp rfl) hρ
  exact hc.scope w (List.mem_append_right _ hw) x hx

theorem subscriptInBounds_error (hd : domain.WellFormed)
    (h : subscriptInBounds insn available domain aggregate index shape =
      .error (.outOfBounds id reference)) :
    id = insn.id ∧ reference = (Expr.subscript aggregate index).text ∧
      index.length = shape.length ∧ ∃ ρ, domain.Mem ρ ∧ OutOfBounds ρ index shape := by
  unfold subscriptInBounds at h
  simp only at h
  split_ifs at h with hscope hlen
  · cases h
  rw [ne_eq, not_not] at hlen
  obtain ⟨_ | range, hrange, h⟩ := algebra_bind_eq_outOfBounds h
  · cases h
  obtain ⟨axes, himage⟩ := Expr.accessRange_spec hd hrange
  obtain ⟨_ | result, hbox, h⟩ := algebra_bind_eq_outOfBounds h
  · cases h
  obtain ⟨_ | _, hv, h⟩ := algebra_bind_eq_outOfBounds h
  · cases h
    have hwf := (withinExtents_spec (.univ himage.wellFormed.distinct) hbox).1
    refine ⟨rfl, rfl, hlen, outOfBounds_of_not_subset himage hbox hlen fun hsub => ?_⟩
    exact Bool.false_ne_true ((IntegerSet.isSubset_spec himage.wellFormed hwf hv).mpr hsub)
  · cases h

end Subscript

section Kernel

variable {id reference : String}

theorem domainFor_wellFormed {inames : List String} (hk : ∀ d ∈ k.domains, d.WellFormed)
    (h : k.domainFor inames = .ok domain) : domain.WellFormed := by
  have hempty : Space.empty.Distinct := List.nodup_nil
  refine (IntegerSet.intersectAll_spec (.univ hempty) (fun d hd => hk d ?_) h).1
  obtain ⟨n, -, hn⟩ := List.mem_filterMap.mp hd
  exact List.mem_of_getElem? hn

theorem ids_of_validateInstructions {declared seen : List String} {insns : List Instruction}
    (h : Kernel.validateInstructions declared seen insns = .ok ()) :
    (insns.map (·.id)).Nodup ∧ ∀ i ∈ insns, i.id ∉ seen := by
  induction insns generalizing seen with
  | nil => exact ⟨.nil, nofun⟩
  | cons i insns ih =>
    unfold Kernel.validateInstructions at h
    split_ifs at h with hseen
    split at h
    · cases h
    · obtain ⟨hnodup, hfresh⟩ := ih h
      rw [List.contains_iff_mem] at hseen
      refine ⟨List.nodup_cons.mpr ⟨fun hmem => ?_, hnodup⟩, List.forall_mem_cons.mpr ⟨hseen, ?_⟩⟩
      · obtain ⟨j, hj, hid⟩ := List.mem_map.mp hmem
        exact hfresh j hj (hid ▸ List.mem_cons_self ..)
      · exact fun j hj hs => hfresh j hj (List.mem_cons_of_mem _ hs)

theorem find?_of_nodup_ids {insns : List Instruction} (h : (insns.map (·.id)).Nodup)
    (hi : insn ∈ insns) : insns.find? (fun i => i.id == insn.id) = some insn := by
  induction insns with
  | nil => cases hi
  | cons j insns ih =>
    obtain ⟨hj, hnodup⟩ := List.nodup_cons.mp h
    rcases List.mem_cons.mp hi with rfl | hi
    · simp
    · have hne : j.id ≠ insn.id := fun heq => hj (List.mem_map.mpr ⟨insn, hi, heq.symm⟩)
      simpa [List.find?_cons, hne] using ih hnodup hi

theorem instruction?_eq (hk : k.validate = .ok ()) (hi : insn ∈ k.instructions) :
    k.instruction? insn.id = some insn := by
  unfold Kernel.validate at hk
  split at hk
  · cases hk
  · obtain ⟨_, hids, -⟩ := bind_eq_ok.mp hk
    exact find?_of_nodup_ids (ids_of_validateInstructions hids).1 hi

theorem insnInBounds_ok (hassumptions : k.assumptions.WellFormed)
    (hdomains : ∀ d ∈ k.domains, d.WellFormed) (h : insnInBounds k insn = .ok ()) :
    ∃ domain, k.domainFor insn.inames = .ok domain ∧
      ((∀ p ∈ domain.space.params, k.isTemporary p = false) →
        ∃ reachable, domain.intersect k.assumptions = .ok reachable ∧
          ∀ aggregate index shape, insn.Accesses aggregate index → k.HasShape aggregate shape →
            Comparable domain.space.names reachable index shape →
            index.length = shape.length ∧
              ∀ ρ, domain.Mem ρ → k.assumptions.Mem ρ → InBounds ρ index shape) := by
  unfold insnInBounds at h
  obtain ⟨domain, hdomain, h⟩ := algebra_bind_eq_ok.mp h
  refine ⟨domain, hdomain, fun hparams => ?_⟩
  have hany : domain.space.params.any k.isTemporary = false := by
    rw [List.any_eq_false]
    exact fun p hp => Bool.eq_false_iff.mp (hparams p hp)
  simp only [hany, Bool.false_eq_true, if_false] at h
  obtain ⟨reachable, hreach, h⟩ := algebra_bind_eq_ok.mp h
  refine ⟨reachable, hreach, fun aggregate index shape hsub hshape hc => ?_⟩
  obtain ⟨hwf, hspace, hmem⟩ :=
    IntegerSet.intersect_spec (domainFor_wellFormed hdomains hdomain) hassumptions hreach
  have hone := forM_eq_ok.mp h _ (mem_subscriptsOf.mpr hsub)
  simp only [extents?_eq_some.mpr hshape] at hone
  have havailable : ∀ x ∈ domain.space.names, x ∈ reachable.space.names := by
    intro x hx
    rw [hspace, Space.mem_names_align]
    exact .inl hx
  obtain ⟨hlen, hbounds⟩ := subscriptInBounds_ok hwf havailable hc hone
  exact ⟨hlen, fun ρ hρ hρ' => hbounds ρ ((hmem ρ).mpr ⟨hρ, hρ'⟩)⟩

theorem insnInBounds_error (hassumptions : k.assumptions.WellFormed)
    (hdomains : ∀ d ∈ k.domains, d.WellFormed)
    (h : insnInBounds k insn = .error (.outOfBounds id reference)) :
    id = insn.id ∧ ∃ domain, k.domainFor insn.inames = .ok domain ∧
      ∃ aggregate index shape, insn.Accesses aggregate index ∧ k.HasShape aggregate shape ∧
        reference = (Expr.subscript aggregate index).text ∧ index.length = shape.length ∧
        ∃ ρ, domain.Mem ρ ∧ k.assumptions.Mem ρ ∧ OutOfBounds ρ index shape := by
  unfold insnInBounds at h
  obtain ⟨domain, hdomain, h⟩ := algebra_bind_eq_outOfBounds h
  split_ifs at h
  obtain ⟨reachable, hreach, h⟩ := algebra_bind_eq_outOfBounds h
  obtain ⟨hwf, -, hmem⟩ :=
    IntegerSet.intersect_spec (domainFor_wellFormed hdomains hdomain) hassumptions hreach
  obtain ⟨⟨aggregate, index⟩, hsub, h⟩ := forM_eq_error h
  simp only at h
  split at h
  · cases h
  · next shape hshape =>
    obtain ⟨hid, href, hlen, ρ, hρ, hout⟩ := subscriptInBounds_error hwf h
    obtain ⟨hρd, hρa⟩ := (hmem ρ).mp hρ
    exact ⟨hid, domain, hdomain, aggregate, index, shape, mem_subscriptsOf.mp hsub,
      extents?_eq_some.mp hshape, href, hlen, ρ, hρd, hρa, hout⟩

/-- Where the check passes, a subscript that can be compared with its shape has one index per
extent, and all of them are in bounds at every integer point of the domain under the assumptions.
A reference that it reports is out of bounds at such a point. -/
theorem arrayBounds_exact (hk : k.validate = .ok ()) (hassumptions : k.assumptions.Built)
    (hdomains : ∀ d ∈ k.domains, d.Built) :
    (arrayBounds k = .ok () → ∀ insn ∈ k.instructions,
      ∃ domain, k.domainFor insn.inames = .ok domain ∧
        ((∀ p ∈ domain.space.params, k.isTemporary p = false) →
          ∃ reachable, domain.intersect k.assumptions = .ok reachable ∧
            ∀ aggregate index shape, insn.Accesses aggregate index → k.HasShape aggregate shape →
              Comparable domain.space.names reachable index shape →
              index.length = shape.length ∧
                ∀ ρ, domain.Mem ρ → k.assumptions.Mem ρ → InBounds ρ index shape)) ∧
      ∀ id reference, arrayBounds k = .error (.outOfBounds id reference) →
        ∃ insn domain, k.instruction? id = some insn ∧ k.domainFor insn.inames = .ok domain ∧
          ∃ aggregate index shape, insn.Accesses aggregate index ∧ k.HasShape aggregate shape ∧
            reference = (Expr.subscript aggregate index).text ∧ index.length = shape.length ∧
            ∃ ρ, domain.Mem ρ ∧ k.assumptions.Mem ρ ∧ OutOfBounds ρ index shape := by
  have hwf : ∀ d ∈ k.domains, d.WellFormed := fun d hd => (hdomains d hd).wellFormed
  constructor
  · intro h insn hinsn
    exact insnInBounds_ok hassumptions.wellFormed hwf (forM_eq_ok.mp h insn hinsn)
  · intro id reference h
    obtain ⟨insn, hinsn, h⟩ := forM_eq_error h
    obtain ⟨rfl, domain, hdomain, hrest⟩ := insnInBounds_error hassumptions.wellFormed hwf h
    exact ⟨insn, domain, instruction?_eq hk hinsn, hdomain, hrest⟩

def shiftedHalf : Expr := .sum [.floorDiv (.var "i") (.int 2), .int 1]

/-- The loop `a[i] = b[i // 2 + 1]` for `0 ≤ i < n`, with an extent for `b`. -/
def halves (extent : Expr) : Kernel :=
  { Kernel.blank with
    domains := [IntegerSet.belowN]
    instructions :=
      [⟨"s", .subscript "a" [.var "i"], .subscript "b" [shiftedHalf], ["i"], false, by decide⟩]
    args := [⟨"a", some [.var "n"], .float64, .global⟩, ⟨"b", some [extent], .float64, .global⟩] }

theorem halves_built (extent : Expr) :
    (halves extent).assumptions.Built ∧ ∀ d ∈ (halves extent).domains, d.Built :=
  ⟨.univ List.nodup_nil, List.forall_mem_singleton.mpr IntegerSet.belowN_built⟩

theorem shiftedHalf_comparable : Comparable IntegerSet.belowN.space.names IntegerSet.belowN
    [shiftedHalf] [.sum [.var "n", .int 1]] where
  scope := by decide
  lowers := by
    obtain ⟨range, h⟩ : ∃ r, Expr.accessRange IntegerSet.belowN [shiftedHalf] = .ok (some r) :=
      ⟨_, rfl⟩
    simp [h]
  affine := List.forall_mem_singleton.mpr (Option.isSome_iff_ne_none.mp rfl)

theorem halves_arrayBounds :
    (arrayBounds (halves (.sum [.var "n", .int 1])) = .ok () ∧
      ∀ ρ, IntegerSet.belowN.Mem ρ → InBounds ρ [shiftedHalf] [.sum [.var "n", .int 1]]) ∧
    arrayBounds (halves (.var "n")) = .error (.outOfBounds "s" "b[i // 2 + 1]") ∧
      ∃ aggregate index shape ρ, "b[i // 2 + 1]" = (Expr.subscript aggregate index).text ∧
        (halves (.var "n")).HasShape aggregate shape ∧ IntegerSet.belowN.Mem ρ ∧
        OutOfBounds ρ index shape := by
  have hpass : arrayBounds (halves (.sum [.var "n", .int 1])) = .ok () := rfl
  have hfail : arrayBounds (halves (.var "n")) = .error (.outOfBounds "s" "b[i // 2 + 1]") := rfl
  have hexact (extent : Expr) :=
    arrayBounds_exact (k := halves extent) rfl (halves_built extent).1 (halves_built extent).2
  refine ⟨⟨hpass, fun ρ hρ => ?_⟩, hfail, ?_⟩
  · obtain ⟨domain, hdomain, hrest⟩ := (hexact _).1 hpass _ (List.mem_singleton.mpr rfl)
    obtain rfl : domain = IntegerSet.belowN := Except.ok.inj (hdomain.symm.trans rfl)
    obtain ⟨reachable, hreach, hrest⟩ := hrest (by decide)
    obtain rfl : reachable = IntegerSet.belowN := Except.ok.inj (hreach.symm.trans rfl)
    have hshape : (halves (.sum [.var "n", .int 1])).HasShape "b" [.sum [.var "n", .int 1]] :=
      .inl ⟨_, rfl, rfl⟩
    exact (hrest "b" _ _ (.inl .here) hshape shiftedHalf_comparable).2 ρ hρ IntegerSet.mem_univ
  · obtain ⟨insn, domain, hinsn, hdomain, aggregate, index, shape, -, hshape, href, -, ρ, hρ, -,
      hout⟩ := (hexact _).2 _ _ hfail
    obtain rfl : _ = insn := Option.some.inj (Eq.trans rfl hinsn)
    obtain rfl : domain = IntegerSet.belowN := Except.ok.inj (hdomain.symm.trans rfl)
    exact ⟨aggregate, index, shape, ρ, href, hshape, hρ, hout⟩

end Kernel

end Check

end LoopAudit
