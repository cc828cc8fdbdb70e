import LoopAudit.Proofs.Bounds
import LoopAudit.Proofs.Placement

/-! Extents over loop variables. The check of array bounds takes a subscript whose names belong to
the domain, but the loop variables that are eliminated from the range of the subscript are no longer
there when the range is held against the extents. This is the only way in which the check fails on a
name. -/

namespace LoopAudit

open Fallible

theorem Conjunction.vars_of_addConstraints {b b' : Conjunction} {cs : List Constraint}
    (h : b.addConstraints cs = .ok b') : ∀ c ∈ cs, ∀ x ∈ c.form.vars, x ∈ b.space.names := by
  refine (foldlM_restricts (I := fun b' => b'.space = b.space) (Q := fun _ => True) ?_ rfl h).2.mp
    trivial |>.2
  intro b₁ c b₂ _ hspace hstep
  refine ⟨(space_addConstraint hstep).trans hspace, iff_of_true trivial ⟨trivial, ?_⟩⟩
  rw [← hspace]
  exact (addConstraint_eq_ok.mp hstep).1

section Slab

variable {space : Space} {x d : String} {hi : Affine}

theorem Constraint.mem_vars_lt {c : Constraint} (hhi : hi.Canonical) (hne : x ≠ d)
    (h : Constraint.lt (.var d) hi = .ok c) (hx : x ∈ hi.vars) : x ∈ c.form.vars := by
  obtain ⟨g, hg, h⟩ := bind_eq_ok.mp h
  obtain ⟨g', hg', h⟩ := bind_eq_ok.mp h
  cases h
  have hvar : (Affine.var d).Over (· ≠ x) := .term (V := (· ≠ x)) hne.symm 1
  obtain ⟨hover, heval⟩ := Affine.sub_spec (V := fun _ => True) ⟨hhi, fun _ _ => trivial⟩
    (hvar.mono fun _ _ => trivial) hg
  obtain ⟨hover', heval'⟩ := Affine.addConstant_spec hover hg'
  have hcoeff : g'.coeff x = 1 * hi.coeff x + -1 * (Affine.var d).coeff x := by
    refine Affine.coeff_of_eval (k := -1) hover'.canonical hhi hvar.canonical fun ρ => ?_
    rw [heval', heval]
    ring
  have hzero : (Affine.var d).coeff x = 0 := Affine.coeff_eq_zero fun hmem => hvar.within x hmem rfl
  refine hover'.canonical.mem_vars_iff.mpr ?_
  rw [hcoeff, hzero, mul_zero, add_zero, one_mul]
  exact hhi.mem_vars_iff.mp hx

namespace IntegerSet

variable {t : IntegerSet}

theorem slab_fails (hd : d ∈ space.names) (hhi : hi.Canonical) : FailsOnly
    (fun e => ∀ x, e = .unknownVariable x → x ∈ hi.vars ∧ x ∉ space.names)
    (slab space d .zero hi) := by
  have hoverflows {α : Type} {r : Except SetError α} (hr : Overflows r) : FailsOnly
      (fun e => ∀ x, e = .unknownVariable x → x ∈ hi.vars ∧ x ∉ space.names) r :=
    (placed_of_overflows hr).mono fun _ he x hx => absurd hx (he x)
  refine (hoverflows (Affine.sub_overflows.bind fun _ => .ok)).bind_of_ok fun above habove => ?_
  refine (hoverflows (Affine.sub_overflows.bind fun _ =>
    Affine.addConstant_overflows.bind fun _ => .ok)).bind_of_ok fun below hbelow => ?_
  refine FailsOnly.bind (Conjunction.addConstraints_fails.mono ?_) fun _ => .ok
  rintro e ⟨c, hc, hfault | ⟨y, rfl, hy, hout⟩⟩ x hx
  · cases hx.symm.trans (Constraint.normalize_traps e hfault)
  cases hx
  obtain ⟨hawf, -⟩ := Constraint.le_spec (V := (· = d)) (.const 0)
    (.term (V := (· = d)) rfl 1) habove
  obtain ⟨hbwf, -⟩ := Constraint.lt_spec (V := fun z => z = d ∨ z ∈ hi.vars) (.term (.inl rfl) 1)
    ⟨hhi, fun _ => .inr⟩ hbelow
  have hne : y ≠ d := fun heq => hout (heq ▸ hd)
  rcases List.mem_cons.mp hc with rfl | hc
  · exact absurd (hawf.form.within y hy) hne
  · rw [List.mem_singleton.mp hc] at hy
    exact ⟨(hbwf.form.within y hy).resolve_left hne, hout⟩

theorem vars_of_slab (hd : d ∈ space.names) (hhi : hi.Canonical)
    (h : slab space d .zero hi = .ok t) : ∀ x ∈ hi.vars, x ∈ space.names := by
  intro x hx
  simp only [slab, bind_eq_ok] at h
  obtain ⟨above, -, below, hbelow, b, hb, -⟩ := h
  by_cases hne : x = d
  · rwa [hne]
  · exact Conjunction.vars_of_addConstraints hb below (by simp) x
      (Constraint.mem_vars_lt hhi hne hbelow hx)

end IntegerSet

end Slab

namespace Check

variable {k : Kernel} {insn : Instruction} {available dims : List String}
  {domain bounds range : IntegerSet} {aggregate x : String} {index shape extents : List Expr}

/-- An extent names something that the range has not, and the extents before it are affine. -/
def Unplaced (range : IntegerSet) (shape : List Expr) (x : String) : Prop :=
  ∃ before w after f, shape = before ++ w :: after ∧ (∀ v ∈ before, v.linearize ≠ none) ∧
    w.linearize = some f ∧ x ∈ f.vars ∧ x ∉ range.space.names

theorem Unplaced.congr (h : Unplaced bounds shape x)
    (hnames : ∀ y, y ∈ range.space.names → y ∈ bounds.space.names) : Unplaced range shape x := by
  obtain ⟨before, w, after, f, hshape, hbefore, hf, hx, hout⟩ := h
  exact ⟨before, w, after, f, hshape, hbefore, hf, hx, mt (hnames x) hout⟩

theorem names_of_intersect_slab {d : String} {hi : Affine} {slab next : IntegerSet}
    (hb : bounds.WellFormed) (hhi : hi.Canonical)
    (hslab : IntegerSet.slab bounds.space d .zero hi = .ok slab)
    (hnext : bounds.intersect slab = .ok next) :
    next.WellFormed ∧ ∀ y, y ∈ next.space.names ↔ y ∈ bounds.space.names := by
  obtain ⟨hswf, hsspace, -⟩ := IntegerSet.slab_spec (V := fun _ => True) hb.distinct (.const 0)
    ⟨hhi, fun _ _ => trivial⟩ trivial hslab
  obtain ⟨hnwf, hnspace, -⟩ := IntegerSet.intersect_spec hb hswf hnext
  refine ⟨hnwf, fun y => ?_⟩
  rw [hnspace, Space.mem_names_align, hsspace, or_self]

theorem withinExtents_unknown (hb : bounds.WellFormed) (hdims : ∀ d ∈ dims, d ∈ bounds.space.names)
    (h : withinExtents bounds dims extents = .error (.unknownVariable x)) :
    Unplaced bounds extents x := by
  induction extents generalizing bounds dims with
  | nil => cases dims <;> cases h
  | cons w extents ih =>
    cases dims with
    | nil => cases h
    | cons d dims =>
      obtain ⟨hd, hdims⟩ := List.forall_mem_cons.mp hdims
      unfold withinExtents at h
      split at h
      · cases h
      · next hi hlin =>
        have hhi := Expr.linearize_canonical hlin
        rcases bind_eq_error.mp h with h | ⟨slab, hslab, h⟩
        · obtain ⟨hx, hout⟩ := IntegerSet.slab_fails hd hhi _ h x rfl
          exact ⟨[], w, extents, hi, rfl, nofun, hlin, hx, hout⟩
        rcases bind_eq_error.mp h with h | ⟨next, hnext, h⟩
        · have hswf := (IntegerSet.slab_spec (V := fun _ => True) hb.distinct (.const 0)
            ⟨hhi, fun _ _ => trivial⟩ trivial hslab).1
          exact (IntegerSet.intersect_safe (E := fun _ => False) hb hswf _ h).elim
        obtain ⟨hnwf, hnames⟩ := names_of_intersect_slab hb hhi hslab hnext
        obtain ⟨before, v, after, f, rfl, hbefore, hf, hx, hout⟩ :=
          ih hnwf (fun y hy => (hnames y).mpr (hdims y hy)) h
        refine ⟨w :: before, v, after, f, rfl, List.forall_mem_cons.mpr ⟨?_, hbefore⟩, hf, hx,
          mt (hnames x).mpr hout⟩
        rw [hlin]
        simp

theorem withinExtents_ne_ok (hb : bounds.WellFormed) (hdims : ∀ d ∈ dims, d ∈ bounds.space.names)
    (hlen : extents.length ≤ dims.length) (h : Unplaced bounds extents x)
    {o : Option IntegerSet} : withinExtents bounds dims extents ≠ .ok o := by
  obtain ⟨before, w, after, f, rfl, hbefore, hf, hx, hout⟩ := h
  induction before generalizing bounds dims with
  | nil =>
    cases dims with
    | nil => cases hlen
    | cons d dims =>
      intro hok
      simp only [List.nil_append, withinExtents, hf] at hok
      obtain ⟨slab, hslab, -⟩ := bind_eq_ok.mp hok
      exact hout (IntegerSet.vars_of_slab (hdims d (List.mem_cons_self ..))
        (Expr.linearize_canonical hf) hslab x hx)
  | cons v before ih =>
    obtain ⟨hv, hbefore⟩ := List.forall_mem_cons.mp hbefore
    obtain ⟨hi, hlin⟩ := Option.ne_none_iff_exists'.mp hv
    cases dims with
    | nil => cases hlen
    | cons d dims =>
      intro hok
      simp only [List.cons_append, withinExtents, hlin] at hok
      obtain ⟨slab, hslab, hok⟩ := bind_eq_ok.mp hok
      obtain ⟨next, hnext, hok⟩ := bind_eq_ok.mp hok
      have hcanonical := Expr.linearize_canonical hlin
      obtain ⟨hnwf, hnames⟩ := names_of_intersect_slab hb hcanonical hslab hnext
      refine ih hnwf (fun y hy => (hnames y).mpr (hdims y (List.mem_cons_of_mem _ hy)))
        (Nat.le_of_succ_le_succ hlen) hbefore (mt (hnames x).mp hout) hok

theorem algebra_bind_eq_setAlgebra {α β : Type} {r : Except SetError α}
    {f : α → Except CheckFailure β} {fault : SetError} :
    (algebra r >>= f) = .error (.setAlgebra fault) ↔
      r = .error fault ∨ ∃ a, r = .ok a ∧ f a = .error (.setAlgebra fault) := by
  rw [bind_eq_error]
  cases r <;> simp [algebra, Except.mapError]

/-- The names of a subscript and its extents belong to the domain, there are as many indices as
extents, and an extent names a loop variable that the range of the subscript has no more. -/
structure Stumbles (available : List String) (domain : IntegerSet) (index shape : List Expr)
    (x : String) : Prop where
  scope : ∀ e ∈ index ++ shape, ∀ y ∈ e.reads, y ∈ available
  arity : index.length = shape.length
  eliminated : x ∈ domain.space.dims ∧ ∃ range, Expr.accessRange domain index = .ok (some range) ∧
    Unplaced range shape x

theorem subscriptInBounds_unknown (hd : domain.WellFormed)
    (havailable : ∀ y ∈ available, y ∈ domain.space.names)
    (h : subscriptInBounds insn available domain aggregate index shape =
      .error (.setAlgebra (.unknownVariable x))) : Stumbles available domain index shape x := by
  unfold subscriptInBounds at h
  simp only at h
  split_ifs at h with hscope hlen
  · cases h
  rw [ne_eq, not_not] at hlen
  have hscope := inScope_iff.mp (by simpa using hscope)
  rcases algebra_bind_eq_setAlgebra.mp h with h | ⟨_ | range, hrange, h⟩
  · exact absurd rfl (Expr.accessRange_placed hd _ h x)
  · cases h
  obtain ⟨axes, himage⟩ := Expr.accessRange_spec hd hrange
  have hbox : (IntegerSet.univ range.space).WellFormed := .univ himage.wellFormed.distinct
  rcases algebra_bind_eq_setAlgebra.mp h with h | ⟨_ | result, hresult, h⟩
  · have hunplaced : Unplaced range shape x :=
      (withinExtents_unknown hbox (fun d hd => List.mem_append_right _ hd) h).congr fun _ => id
    refine ⟨hscope, hlen, ?_, range, hrange, hunplaced⟩
    obtain ⟨before, w, after, f, rfl, -, hf, hx, hout⟩ := hunplaced
    have hreads := (Expr.linearize_spec (V := (· ∈ w.reads)) w (fun _ => id) hf).1.within x hx
    have hname := havailable x (hscope w (by simp) x hreads)
    refine (List.mem_append.mp hname).resolve_left fun hparam => hout ?_
    exact List.mem_append_left _ (himage.params ▸ hparam)
  · cases h
  have hwf := (withinExtents_spec hbox hresult).1
  rcases algebra_bind_eq_setAlgebra.mp h with h | ⟨v, -, h⟩
  · exact absurd rfl (IntegerSet.isSubset_placed himage.wellFormed hwf _ h x)
  · split_ifs at h
    cases h

theorem subscriptInBounds_ne_ok (hd : domain.WellFormed)
    (h : Stumbles available domain index shape x) :
    subscriptInBounds insn available domain aggregate index shape ≠ .ok () := by
  intro hok
  obtain ⟨-, range, hrange, hunplaced⟩ := h.eliminated
  obtain ⟨axes, himage⟩ := Expr.accessRange_spec hd hrange
  unfold subscriptInBounds at hok
  simp only [inScope_iff.mpr h.scope, Bool.not_true, Bool.false_eq_true, if_false, h.arity, ne_eq,
    not_true] at hok
  obtain ⟨o, ho, hok⟩ := algebra_bind_eq_ok.mp hok
  obtain rfl : some range = o := Except.ok.inj (hrange.symm.trans ho)
  obtain ⟨box, hbox, -⟩ := algebra_bind_eq_ok.mp hok
  have hlen : shape.length ≤ range.space.dims.length := by
    rw [← h.arity, ← himage.length]
    exact himage.dims.length_le
  exact withinExtents_ne_ok (.univ himage.wellFormed.distinct)
    (fun d hd => List.mem_append_right _ hd) hlen hunplaced hbox

section Kernel

variable {reachable : IntegerSet}

structure Examined (k : Kernel) (insn : Instruction) (domain reachable : IntegerSet)
    (aggregate : String) (index shape : List Expr) : Prop where
  domainFor : k.domainFor insn.inames = .ok domain
  params : ∀ p ∈ domain.space.params, k.isTemporary p = false
  reachable : domain.intersect k.assumptions = .ok reachable
  accesses : insn.Accesses aggregate index
  shape : k.HasShape aggregate shape

theorem domainFor_placed {inames : List String} (hk : ∀ d ∈ k.domains, d.WellFormed) :
    Placed (k.domainFor inames) := by
  refine IntegerSet.intersectAll_safe (.univ List.nodup_nil) fun d hd => hk d ?_
  obtain ⟨n, -, hn⟩ := List.mem_filterMap.mp hd
  exact List.mem_of_getElem? hn

theorem insnInBounds_unknown (hassumptions : k.assumptions.WellFormed)
    (hdomains : ∀ d ∈ k.domains, d.WellFormed)
    (h : insnInBounds k insn = .error (.setAlgebra (.unknownVariable x))) :
    ∃ domain reachable aggregate index shape,
      Examined k insn domain reachable aggregate index shape ∧
        Stumbles domain.space.names reachable index shape x := by
  unfold insnInBounds at h
  rcases algebra_bind_eq_setAlgebra.mp h with h | ⟨domain, hdomain, h⟩
  · exact absurd rfl (domainFor_placed hdomains _ h x)
  have hwf := domainFor_wellFormed hdomains hdomain
  split_ifs at h with hparams
  rcases algebra_bind_eq_setAlgebra.mp h with h | ⟨reachable, hreach, h⟩
  · exact (IntegerSet.intersect_safe (E := fun _ => False) hwf hassumptions _ h).elim
  obtain ⟨hwf', hspace, -⟩ := IntegerSet.intersect_spec hwf hassumptions hreach
  obtain ⟨⟨aggregate, index⟩, hsub, h⟩ := forM_eq_error h
  simp only at h
  split at h
  · cases h
  · next shape hshape =>
    refine ⟨domain, reachable, aggregate, index, shape, ⟨hdomain, ?_, hreach,
      mem_subscriptsOf.mp hsub, extents?_eq_some.mp hshape⟩, subscriptInBounds_unknown hwf' ?_ h⟩
    · simpa using hparams
    · intro y hy
      rw [hspace, Space.mem_names_align]
      exact .inl hy

theorem Examined.verdict (he : Examined k insn domain reachable aggregate index shape)
    (h : insnInBounds k insn = .ok ()) :
    subscriptInBounds insn domain.space.names reachable aggregate index shape = .ok () := by
  have hparams : domain.space.params.any k.isTemporary = false := by simpa using he.params
  unfold insnInBounds at h
  obtain ⟨d, hd, h⟩ := algebra_bind_eq_ok.mp h
  obtain rfl : domain = d := Except.ok.inj (he.domainFor.symm.trans hd)
  simp only [hparams, Bool.false_eq_true, if_false] at h
  obtain ⟨r, hr, h⟩ := algebra_bind_eq_ok.mp h
  obtain rfl : reachable = r := Except.ok.inj (he.reachable.symm.trans hr)
  have hone := forM_eq_ok.mp h _ (mem_subscriptsOf.mpr he.accesses)
  simpa only [extents?_eq_some.mpr he.shape] using hone

theorem Examined.wellFormed (he : Examined k insn domain reachable aggregate index shape)
    (hassumptions : k.assumptions.WellFormed) (hdomains : ∀ d ∈ k.domains, d.WellFormed) :
    reachable.WellFormed ∧ ∀ y ∈ domain.space.names, y ∈ reachable.space.names := by
  have hwf := domainFor_wellFormed hdomains he.domainFor
  obtain ⟨hwf', hspace, -⟩ := IntegerSet.intersect_spec hwf hassumptions he.reachable
  refine ⟨hwf', fun y hy => ?_⟩
  rw [hspace, Space.mem_names_align]
  exact .inl hy

/-- The check fails on a name only where an extent names a loop variable that is eliminated from the
range of its subscript, and there it never passes. Subscripts with names from outside the domain are
passed over, and where the check passes all others that are affine have been compared. -/
theorem arrayBounds_unknownVariable (hassumptions : k.assumptions.Built)
    (hdomains : ∀ d ∈ k.domains, d.Built) :
    (∀ x, arrayBounds k = .error (.setAlgebra (.unknownVariable x)) →
      ∃ insn ∈ k.instructions, ∃ domain reachable aggregate index shape,
        Examined k insn domain reachable aggregate index shape ∧
          Stumbles domain.space.names reachable index shape x) ∧
    ∀ insn ∈ k.instructions, ∀ domain reachable aggregate index shape,
      Examined k insn domain reachable aggregate index shape →
        (∀ x, Stumbles domain.space.names reachable index shape x → arrayBounds k ≠ .ok ()) ∧
        ((∃ e ∈ index ++ shape, ∃ y ∈ e.reads, y ∉ domain.space.names) →
          subscriptInBounds insn domain.space.names reachable aggregate index shape = .ok ()) ∧
        (arrayBounds k = .ok () → Comparable domain.space.names reachable index shape →
          index.length = shape.length ∧ ∀ ρ, reachable.Mem ρ → InBounds ρ index shape) := by
  have hwf := hassumptions.wellFormed
  have hwfs : ∀ d ∈ k.domains, d.WellFormed := fun d hd => (hdomains d hd).wellFormed
  refine ⟨fun x h => ?_, fun insn hinsn domain reachable aggregate index shape he => ?_⟩
  · obtain ⟨insn, hinsn, h⟩ := forM_eq_error h
    exact ⟨insn, hinsn, insnInBounds_unknown hwf hwfs h⟩
  obtain ⟨hreach, havailable⟩ := he.wellFormed hwf hwfs
  have hverdict (h : arrayBounds k = .ok ()) := he.verdict (forM_eq_ok.mp h insn hinsn)
  refine ⟨fun x hx h => subscriptInBounds_ne_ok hreach hx (hverdict h), ?_,
    fun h hc => subscriptInBounds_ok hreach havailable hc (hverdict h)⟩
  rintro ⟨e, hmem, y, hy, hout⟩
  have hscope : ((index ++ shape).all fun e => e.dependencies.all domain.space.names.contains) =
      false := by
    rw [← Bool.not_eq_true, inScope_iff]
    exact fun hall => hout (hall e hmem y hy)
  simp [subscriptInBounds, hscope]

def triangle : IntegerSet :=
  ⟨⟨["n"], ["i", "j"]⟩, [⟨⟨["n"], ["i", "j"]⟩, [.ge ⟨[("j", 1)], 0⟩,
    .ge ⟨[("i", 1), ("j", -1)], 0⟩, .ge ⟨[("i", -1), ("n", 1)], -1⟩], false⟩]⟩

theorem triangle_built : triangle.Built := .remade (by decide) (by decide) rfl

theorem triangle_sorted : triangle.space.dims.Pairwise (· < ·) := by decide

def clearing : Instruction :=
  ⟨"clear", .subscript "row" [.var "j"], .int 0, ["i", "j"], false, triangle_sorted⟩

def clearRow (extent : Expr) : Kernel :=
  { Kernel.blank with
    domains := [triangle]
    instructions := [clearing]
    temporaries := [⟨"row", [extent], .float32, .perItem⟩] }

theorem clearRow_examined (extent : Expr) :
    Examined (clearRow extent) clearing triangle triangle "row" [.var "j"] [extent] where
  domainFor := rfl
  params := List.forall_mem_singleton.mpr rfl
  reachable := rfl
  accesses := .inr .here
  shape := .inr ⟨rfl, _, rfl, rfl⟩

theorem clearRow_arrayBounds :
    (arrayBounds (clearRow (.var "n")) = .ok () ∧
      ∀ ρ, triangle.Mem ρ → InBounds ρ [.var "j"] [.var "n"]) ∧
    subscriptInBounds clearing triangle.space.names triangle "row" [.var "j"] [.var "m"] = .ok () ∧
    ∃ insn ∈ (clearRow (.sum [.var "i", .int 1])).instructions,
      ∃ domain reachable aggregate index shape,
        Examined (clearRow (.sum [.var "i", .int 1])) insn domain reachable aggregate index shape ∧
          Stumbles domain.space.names reachable index shape "i" := by
  have hbuilt (extent : Expr) : (clearRow extent).assumptions.Built ∧
      ∀ d ∈ (clearRow extent).domains, d.Built :=
    ⟨.univ List.nodup_nil, List.forall_mem_singleton.mpr triangle_built⟩
  have hstatement (extent : Expr) := (arrayBounds_unknownVariable (hbuilt extent).1
    (hbuilt extent).2).2 _ (List.mem_singleton.mpr rfl) _ _ _ _ _ (clearRow_examined extent)
  have hpass : arrayBounds (clearRow (.var "n")) = .ok () := rfl
  have hcomparable : Comparable triangle.space.names triangle [.var "j"] [.var "n"] := by
    obtain ⟨range, hrange⟩ : ∃ r, Expr.accessRange triangle [.var "j"] = .ok (some r) := ⟨_, rfl⟩
    refine ⟨by decide, by simp [hrange], ?_⟩
    exact List.forall_mem_singleton.mpr (Option.isSome_iff_ne_none.mp rfl)
  exact ⟨⟨hpass, ((hstatement _).2.2 hpass hcomparable).2⟩,
    (hstatement _).2.1 ⟨.var "m", by simp, "m", by decide, by decide⟩,
    (arrayBounds_unknownVariable (hbuilt _).1 (hbuilt _).2).1 "i" rfl⟩

theorem clearRow_unknownVariable :
    (clearRow (.sum [.var "i", .int 1])).validate = .ok () ∧
      arrayBounds (clearRow (.sum [.var "i", .int 1])) =
        .error (.setAlgebra (.unknownVariable "i")) :=
  ⟨rfl, rfl⟩

end Kernel

end Check

end LoopAudit
