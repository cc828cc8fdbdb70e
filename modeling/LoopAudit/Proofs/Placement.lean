import LoopAudit.Proofs.AccessRange
import LoopAudit.Proofs.Agreement

/-! Names and their place. An operation on well-formed sets never fails on a name that is not part
of a space: it aligns the spaces of its operands first, and elimination has no names to look up.
Neither does the range of subscripts, whose lowering takes its helpers from outside the space. -/

namespace LoopAudit

open Fallible

abbrev Placed {α : Type} (r : Except SetError α) : Prop :=
  FailsOnly (fun e => ∀ x, e ≠ .unknownVariable x) r

theorem placed_of_exhausts {α : Type} {r : Except SetError α} (h : Sample.Exhausts r) :
    Placed r := by
  refine h.mono ?_
  rintro _ (rfl | rfl | rfl) x
  · simp
  · simp
  · simp

theorem placed_of_overruns {α : Type} {r : Except SetError α} (h : Overruns r) : Placed r :=
  placed_of_exhausts (h.mono fun _ => .inr)

theorem placed_of_overflows {α : Type} {r : Except SetError α} (h : Overflows r) : Placed r :=
  placed_of_overruns h.overruns

theorem placed_splitLimit {α : Type} {n : Nat} :
    Placed (.error (.splitLimit n) : Except SetError α) :=
  .error fun _ => by simp

theorem Space.ofNames_fails {params dims : List String} :
    FailsOnly (fun e => ∃ x, e = .duplicateName x) (ofNames params dims) := by
  unfold ofNames
  split
  · exact .error ⟨_, rfl⟩
  · exact .ok

namespace System

variable {s : System} {x : String} {e l : Affine}

theorem slice_overruns : Overruns (s.slice x e) := by
  refine ofList?_overruns.bind fun _ => ?_
  split
  · exact .ok
  · split
    · exact eliminateByEquality_overruns
    · exact .ok

theorem splinters_placed {n : Nat} {i : Int} {found : List System} :
    Placed (splinters s x l n i found) := by
  induction n generalizing i found with
  | zero => exact .ok
  | succ n ih =>
    refine (placed_of_overflows Affine.addConstant_overflows).bind fun _ =>
      (placed_of_overruns slice_overruns).bind fun _ => ?_
    dsimp only
    split
    · exact placed_splitLimit
    · exact ih

theorem darkPair_overflows {bounds : Affine × Affine} : Overflows (darkPair x bounds) :=
  realPair_overflows.bind fun _ => exact_overflows.bind fun _ =>
    Affine.addConstant_overflows.bind fun _ => .ok

theorem sliceCount_overruns {m : Int} : Overruns (sliceCount m l x) :=
  exact_overflows.overruns.bind fun _ => trapping_overruns.bind fun _ =>
    exact_overflows.overruns.bind fun _ => .ok

theorem eliminateBounds_placed : Placed (s.eliminateBounds x) := by
  refine (placed_of_overruns ofList?_overruns).bind fun _ => ?_
  split
  · exact .ok
  · dsimp only
    split
    · exact (placed_of_overruns (insertEach_overruns fun _ => realPair_overflows)).bind
        fun _ => .ok
    · refine (placed_of_overruns (insertEach_overruns fun _ => darkPair_overflows)).bind
        fun _ => .foldlM fun _ _ => ?_
      exact (placed_of_overruns sliceCount_overruns).bind fun _ => splinters_placed

theorem period_overflows : Overflows (period x s) := by
  refine .foldlM fun p c => ?_
  unfold joinPeriod
  split
  · split
    · exact exact_overflows
    · exact .ok
  · exact .ok

theorem eliminateResidue_placed {p r : Int} : Placed (s.eliminateResidue x p r) := by
  have hsubstitute (f : Affine) : Overflows (s.mapM fun c => c.substitute x f) :=
    .mapM fun _ => Affine.substitute_overflows.bind fun _ => .ok
  refine (placed_of_overflows Affine.addConstant_overflows).bind fun f =>
    (placed_of_overflows (hsubstitute f)).bind fun _ =>
    (placed_of_overruns ofList?_overruns).bind fun _ => ?_
  split
  · exact .ok
  · exact eliminateBounds_placed

theorem eliminate_placed : Placed (s.eliminate x) := by
  unfold eliminate
  split
  · exact .ok
  · split
    · exact (placed_of_overruns eliminateByEquality_overruns).bind fun _ => .ok
    · refine (placed_of_overflows period_overflows).bind fun p => ?_
      split
      · exact eliminateBounds_placed
      · split
        · exact placed_splitLimit
        · refine .foldlM fun _ _ => eliminateResidue_placed.bind fun _ => ?_
          dsimp only
          split
          · exact placed_splitLimit
          · exact .ok

end System

namespace Conjunction

variable {a b : Conjunction} {c : Constraint} {cs : List Constraint} {space : Space}
  {names : List String} {E : SetError → Prop}

theorem projectOut_placed : Placed (b.projectOut names) := by
  unfold projectOut
  split
  · exact .ok
  · refine FailsOnly.bind (.foldlM fun _ _ => .foldlM fun _ _ => ?_) fun _ => .ok
    refine System.eliminate_placed.bind fun _ => ?_
    dsimp only
    split
    · exact placed_splitLimit
    · exact .ok

theorem rehome_safe (h : ∀ x ∈ b.space.names, x ∈ space.names) : FailsOnly E (b.rehome space) := by
  rw [rehome, Space.find?_not_contains_eq_none.mpr h]
  exact .ok

theorem space_rehome {b' : Conjunction} (h : b.rehome space = .ok b') : b'.space = space := by
  unfold rehome at h
  split at h
  · cases h
  · cases h
    rfl

theorem rehome_align_safe : FailsOnly E (a.rehome (a.space.align b.space)) :=
  rehome_safe fun _ hx => Space.mem_names_align.mpr (.inl hx)

theorem addConstraint_safe (h : ∀ x ∈ c.form.vars, x ∈ b.space.names)
    (hc : FailsOnly E c.normalize) : FailsOnly E (b.addConstraint c) := by
  refine addConstraint_fails.mono ?_
  rintro e (he | ⟨x, rfl, hx, hout⟩)
  · exact hc e he
  · exact absurd (h x hx) hout

theorem addConstraint_placed (h : ∀ x ∈ c.form.vars, x ∈ b.space.names) :
    Placed (b.addConstraint c) :=
  addConstraint_safe h (placed_of_overruns Constraint.normalize_traps.overruns)

theorem addConstraints_safe (h : ∀ c ∈ cs, c.IsNormal (· ∈ b.space.names)) :
    FailsOnly E (b.addConstraints cs) := by
  refine addConstraints_fails.mono ?_
  rintro e ⟨c, hc, he | ⟨x, rfl, hx, hout⟩⟩
  · cases (h c hc).fixed.symm.trans he
  · exact absurd ((h c hc).form.within x hx) hout

theorem intersect_safe (hb : b.WellFormed) : FailsOnly E (a.intersect b) := by
  refine rehome_align_safe.bind_of_ok fun c hc => addConstraints_safe fun d hd => ?_
  have hspace : (if b.isContradictory then c.markEmpty else c).space = c.space := by
    split <;> rfl
  rw [hspace, space_rehome hc]
  exact (hb.constraint hd).mono fun x hx => Space.mem_names_align.mpr (.inr hx)

theorem negate_placed : Placed c.negate := by
  have hadd {e : Affine} {k : Int} : Placed (e.addConstant k) :=
    placed_of_overflows Affine.addConstant_overflows
  refine (placed_of_overflows Affine.scale_overflows).bind fun _ => hadd.bind fun _ => ?_
  split
  · exact .ok
  · exact hadd.bind fun _ => .ok
  · split
    · exact placed_splitLimit
    · exact .mapM fun _ => hadd.bind fun _ => .ok

theorem isEmpty_placed : Placed b.isEmpty :=
  (placed_of_exhausts sample_exhausts).bind fun _ => .ok

theorem nonemptyWith_placed (h : ∀ c ∈ cs, ∀ x ∈ c.form.vars, x ∈ b.space.names) :
    Placed (b.nonemptyWith cs) := by
  induction cs with
  | nil => exact .ok
  | cons c cs ih =>
    obtain ⟨hc, hcs⟩ := List.forall_mem_cons.mp h
    exact (addConstraint_placed hc).bind fun _ => isEmpty_placed.bind fun _ =>
      (ih hcs).bind fun _ => .ok

theorem violations_placed (h : ∀ c ∈ cs, c.WellFormed (· ∈ a.space.names)) :
    Placed (a.violations cs) := by
  induction cs generalizing a with
  | nil => exact .ok
  | cons c cs ih =>
    obtain ⟨hc, hcs⟩ := List.forall_mem_cons.mp h
    unfold violations
    split
    · exact .ok
    · refine negate_placed.bind_of_ok fun alternatives halt => ?_
      have hnames := (Constraint.negate_spec hc halt).1
      refine (nonemptyWith_placed fun d hd => (hnames d hd).form.within).bind fun _ => ?_
      refine (addConstraint_placed hc.form.within).bind_of_ok fun next hnext => ?_
      have hspace := space_addConstraint hnext
      exact (ih (hspace ▸ hcs)).bind fun _ => .ok

theorem subtract_placed (hb : b.WellFormed) : Placed (a.subtract b) := by
  refine rehome_align_safe.bind_of_ok fun c hc => ?_
  split
  · exact .ok
  · refine violations_placed fun d hd => (hb.constraint hd).toWellFormed.mono fun x hx => ?_
    rw [space_rehome hc, Space.mem_names_align]
    exact .inr hx

end Conjunction

namespace IntegerSet

variable {s t : IntegerSet} {b : Conjunction} {bs : List Conjunction} {cs : List Constraint}
  {space : Space} {names : List String} {E : SetError → Prop}

theorem space_addPiece (h : s.addPiece b = .ok t) : t.space = s.space := by
  unfold addPiece at h
  split_ifs at h
  · cases h
    rfl
  · obtain ⟨_, -, h⟩ := bind_eq_ok.mp h
    cases h
    rfl

theorem addPiece_safe (h : ∀ x ∈ b.space.names, x ∈ s.space.names) :
    FailsOnly E (s.addPiece b) := by
  unfold addPiece
  split
  · exact .ok
  · exact (Conjunction.rehome_safe h).bind fun _ => .ok

theorem addPieces_safe (h : ∀ b ∈ bs, ∀ x ∈ b.space.names, x ∈ s.space.names) :
    FailsOnly E (s.addPieces bs) := by
  refine .foldlM_invariant (I := fun t => t.space = s.space) rfl ?_ ?_
  · exact fun _ _ _ _ ht hb => (space_addPiece hb).trans ht
  · intro t b hb ht
    exact addPiece_safe (ht ▸ h b hb)

theorem intersect_safe (hs : s.WellFormed) (ht : t.WellFormed) : FailsOnly E (s.intersect t) := by
  refine .foldlM_invariant (I := fun u => u.space = s.space.align t.space) rfl ?_ ?_
  · intro u pq u' _ hu h
    obtain ⟨_, -, h⟩ := bind_eq_ok.mp h
    exact (space_addPiece h).trans hu
  · intro u pq hpq hu
    obtain ⟨p, hp, q, hq, rfl⟩ : ∃ p ∈ s.pieces, ∃ q ∈ t.pieces, (p, q) = pq := by simpa using hpq
    obtain ⟨hpwf, hpspace⟩ := hs.pieces p hp
    obtain ⟨hqwf, hqspace⟩ := ht.pieces q hq
    refine (Conjunction.intersect_safe hqwf).bind_of_ok fun m hm => addPiece_safe ?_
    rw [(Conjunction.intersect_spec hpwf hqwf hm).2.1, hpspace, hqspace, hu]
    exact fun _ => id

theorem intersectAll_safe {sets : List IntegerSet} (hs : s.WellFormed)
    (hsets : ∀ t ∈ sets, t.WellFormed) : FailsOnly E (sets.foldlM intersect s) :=
  .foldlM_invariant hs (fun _ t _ ht hs h => (intersect_spec hs (hsets t ht) h).1)
    fun _ t ht hs => intersect_safe hs (hsets t ht)

theorem space_addPieces (h : s.addPieces bs = .ok t) : t.space = s.space :=
  Fallible.foldlM_invariant (I := fun t => t.space = s.space)
    (fun _ _ _ _ ht hb => (space_addPiece hb).trans ht) rfl h

theorem projectOut_fails (hs : s.WellFormed)
    (hpieces : ∀ p ∈ s.pieces, FailsOnly E (p.projectOut names)) :
    FailsOnly E (s.projectOut names) := by
  refine .foldlM_invariant (I := fun t => t.space = s.space.without names) rfl ?_ ?_
  · intro t p t' _ ht h
    obtain ⟨_, -, h⟩ := bind_eq_ok.mp h
    exact (space_addPieces h).trans ht
  · intro t p hp ht
    obtain ⟨hwf, hspace⟩ := hs.pieces p hp
    refine (hpieces p hp).bind_of_ok fun found hfound => addPieces_safe ?_
    intro b hb
    rw [((Conjunction.projectOut_spec hwf hfound).1 b hb).2, hspace, ht]
    exact fun _ => id

theorem projectOut_placed (hs : s.WellFormed) : Placed (s.projectOut names) :=
  projectOut_fails hs fun _ _ => Conjunction.projectOut_placed

theorem addConstraint_safe {c : Constraint} (hs : s.WellFormed)
    (h : ∀ x ∈ c.form.vars, x ∈ s.space.names) (hc : FailsOnly E c.normalize) :
    FailsOnly E (s.addConstraint c) := by
  rw [addConstraint_eq]
  refine .map (.mapM_mem fun b hb => ?_)
  exact Conjunction.addConstraint_safe ((hs.pieces b hb).2 ▸ h) hc

theorem addConstraints_safe {V : String → Prop} (hs : s.WellFormed)
    (hcs : ∀ c ∈ cs, c.WellFormed V) (hV : ∀ x, V x → x ∈ s.space.names)
    (hnormal : ∀ c ∈ cs, FailsOnly E c.normalize) : FailsOnly E (cs.foldlM addConstraint s) := by
  refine .foldlM_invariant (I := fun t => t.WellFormed ∧ t.space = s.space) ⟨hs, rfl⟩ ?_ ?_
  · intro t c t' hc ht h
    obtain ⟨hwf, hspace, -⟩ := addConstraint_spec ht.1 (hcs c hc) h
    exact ⟨hwf, hspace.trans ht.2⟩
  · intro t c hc ht
    exact addConstraint_safe ht.1 (fun x hx => ht.2 ▸ hV x ((hcs c hc).form.within x hx))
      (hnormal c hc)

def HousedIn (space : Space) (b : Conjunction) : Prop :=
  b.WellFormed ∧ ∀ x ∈ b.space.names, x ∈ space.names

theorem subtractPiece_housedIn {pieces : List Conjunction} (hbs : ∀ p ∈ bs, HousedIn space p)
    (hb : HousedIn space b) (h : subtractPiece bs b = .ok pieces) :
    ∀ p ∈ pieces, HousedIn space p := by
  refine Fallible.foldlM_invariant (I := fun found => ∀ p ∈ found, HousedIn space p) ?_
    (fun _ hp => absurd hp List.not_mem_nil) h
  intro found p found' hp hfound hstep
  obtain ⟨left, hleft, hstep⟩ := bind_eq_ok.mp hstep
  cases hstep
  refine List.forall_mem_append.mpr ⟨hfound, fun q hq => ?_⟩
  obtain ⟨hwf, hspace⟩ := (Conjunction.subtract_spec (hbs p hp).1 hb.1 hleft).1 q hq
  refine ⟨hwf, fun x hx => ?_⟩
  rw [hspace, Space.mem_names_align] at hx
  exact hx.elim ((hbs p hp).2 x) (hb.2 x)

theorem subtract_placed (hs : s.WellFormed) (ht : t.WellFormed) : Placed (s.subtract t) := by
  have hrehome : Placed (s.pieces.mapM (·.rehome (s.space.align t.space))) :=
    .mapM_mem fun p hp => Conjunction.rehome_safe fun x hx =>
      Space.mem_names_align.mpr (.inl ((hs.pieces p hp).2 ▸ hx))
  refine hrehome.bind_of_ok fun start hstart => ?_
  have hpieces : Placed (t.pieces.foldlM subtractPiece start) :=
    .foldlM_mem fun _ b hb => .foldlM fun _ _ =>
      (Conjunction.subtract_placed (ht.pieces b hb).1).bind fun _ => .ok
  refine hpieces.bind_of_ok fun left hleft => addPieces_safe fun p hp => ?_
  have hhoused : ∀ p ∈ left, HousedIn (s.space.align t.space) p := by
    refine Fallible.foldlM_invariant
      (I := fun found => ∀ p ∈ found, HousedIn (s.space.align t.space) p) ?_ ?_ hleft
    · intro found b found' hb hfound hstep
      obtain ⟨hwf, hspace⟩ := ht.pieces b hb
      refine subtractPiece_housedIn hfound ⟨hwf, fun x hx => ?_⟩ hstep
      exact Space.mem_names_align.mpr (.inr (hspace ▸ hx))
    · intro p hp
      obtain ⟨hwf, hspace⟩ := (mapM_rehome_spec hs.distinct.align hs hstart).1 p hp
      exact ⟨hwf, fun x hx => hspace ▸ hx⟩
  exact (hhoused p hp).2

theorem firstSample_exhausts : Sample.Exhausts (firstSample bs) := by
  induction bs with
  | nil => exact .ok
  | cons b bs ih =>
    refine Conjunction.sample_exhausts.bind fun o => ?_
    split
    · exact .ok
    · exact ih

theorem isSubset_placed (hs : s.WellFormed) (ht : t.WellFormed) : Placed (s.isSubset t) :=
  (subtract_placed hs ht).bind fun _ => (placed_of_exhausts firstSample_exhausts).bind fun _ => .ok

end IntegerSet

namespace Expr

variable {space : Space} {state state' : Lowering}

namespace Lowering

theorem overPositive_overflows {num : Affine} {d : Int} : Overflows (overPositive num d) := by
  unfold overPositive
  split
  · exact .ok
  · exact Affine.scale_overflows.bind fun _ => exact_overflows.bind fun _ => .ok

theorem quotient_overflows {num : Affine} {d : Int} : Overflows (state.quotient num d) := by
  have hle {e f : Affine} : Overflows (Constraint.le e f) :=
    Affine.sub_overflows.bind fun _ => .ok
  exact overPositive_overflows.bind fun _ => hle.bind fun _ =>
    Affine.addConstant_overflows.bind fun _ => hle.bind fun _ => .ok

theorem divide?_overflows {num den : Affine} : Overflows (state.divide? num den) := by
  unfold divide?
  split
  · exact .ok
  · exact quotient_overflows.map

end Lowering

theorem affineProduct?_overflows {e f : Affine} : Overflows (affineProduct? e f) := by
  unfold affineProduct?
  split
  · exact Affine.scale_overflows.map
  · split
    · exact Affine.scale_overflows.map
    · exact .ok

mutual

theorem lower_overflows : ∀ (e : Expr) {state : Lowering}, Overflows (lower space state e)
  | int _, _ => .ok
  | var _, _ => .ok
  | sum xs, _ => lowerSum_overflows xs
  | product xs, _ => lowerProduct_overflows xs
  | neg x, state => by
    refine (lower_overflows x).bind fun o => ?_
    split
    · exact .ok
    · exact Affine.scale_overflows.bind fun _ => .ok
  | floorDiv a b, state => by
    refine (lower_overflows a).bind fun o => ?_
    split
    · exact .ok
    · refine (lower_overflows b).bind fun o => ?_
      split
      · exact .ok
      · exact Lowering.divide?_overflows
  | remainder a b, state => by
    refine (lower_overflows a).bind fun o => ?_
    split
    · exact .ok
    · refine (lower_overflows b).bind fun o => ?_
      split
      · exact .ok
      · refine Lowering.divide?_overflows.bind fun o => ?_
        split
        · exact .ok
        · exact Affine.scale_overflows.bind fun _ => Affine.sub_overflows.bind fun _ => .ok
  | subscript _ _, _ => .ok
  | call _ _, _ => .ok

theorem lowerSum_overflows : ∀ (xs : List Expr) {state : Lowering} {acc : Affine},
    Overflows (lowerSum space state acc xs)
  | [], _, _ => .ok
  | x :: xs, _, _ => by
    refine (lower_overflows x).bind fun o => ?_
    split
    · exact .ok
    · exact Affine.add_overflows.bind fun _ => lowerSum_overflows xs

theorem lowerProduct_overflows : ∀ (xs : List Expr) {state : Lowering} {acc : Affine},
    Overflows (lowerProduct space state acc xs)
  | [], _, _ => .ok
  | x :: xs, _, _ => by
    refine (lower_overflows x).bind fun o => ?_
    split
    · exact .ok
    · refine affineProduct?_overflows.bind fun o => ?_
      split
      · exact .ok
      · exact lowerProduct_overflows xs

end

theorem lowerIndices_overflows {index : List Expr} {k : Nat} :
    Overflows (lowerIndices space k state index) := by
  induction index generalizing k state with
  | nil => exact .ok
  | cons x index ih =>
    refine (lower_overflows x).bind fun o => ?_
    split
    · exact .ok
    · refine FailsOnly.bind (Affine.sub_overflows.bind fun _ => .ok) fun _ => ih.bind fun o => ?_
      split
      · exact .ok
      · exact .ok

section Names

open Lowering

theorem taken_of_divides (h : Relation.ReflTransGen (Divides space) state state') :
    (∀ x ∈ state.helpers, x ∈ state'.helpers) ∧
      ∀ x ∈ state'.taken, x ∈ state.taken ∨ x ∈ state'.helpers := by
  induction h with
  | refl => exact ⟨fun _ => id, fun _ => .inl⟩
  | tail _ hstep ih =>
    obtain ⟨-, q, num, d, hpins⟩ := hstep
    rw [hpins.helpers, hpins.taken]
    refine ⟨fun x hx => List.mem_append_left _ (ih.1 x hx), fun x hx => ?_⟩
    rcases List.mem_append.mp hx with hx | hx
    · exact (ih.2 x hx).imp_right (List.mem_append_left _)
    · exact .inr (List.mem_append_right _ hx)

theorem taken_of_lowerIndices {index : List Expr} {k : Nat} {found : List (String × Constraint)}
    (hs : state.Sound space)
    (h : lowerIndices space k state index = .ok (some (found, state'))) :
    (∀ x ∈ state.helpers, x ∈ state'.helpers) ∧ ∀ x ∈ state'.taken,
      x ∈ state.taken ∨ x ∈ found.map Prod.fst ∨ x ∈ state'.helpers := by
  induction index generalizing k state found with
  | nil =>
    cases h
    exact ⟨fun _ => id, fun _ => .inl⟩
  | cons e index ih =>
    obtain ⟨f, mid, axis, next, c, rest, he, hfresh, -, htail, rfl⟩ := lowerIndices_cons h
    have hsound := (lower_spec e hs he).1.sound
    obtain ⟨hhelpers, htaken⟩ := taken_of_divides (lower_divides e hs he)
    obtain ⟨hhelpers', htaken'⟩ := ih (fresh_spec hsound hfresh).1 htail
    cases hfresh
    refine ⟨fun x hx => hhelpers' x (hhelpers x hx), fun x hx => ?_⟩
    rcases htaken' x hx with hx | hx | hx
    · rcases List.mem_append.mp hx with hx | hx
      · exact (htaken x hx).imp_right fun hx => .inr (hhelpers' x hx)
      · exact .inr (.inl (List.mem_singleton.mp hx ▸ List.mem_cons_self ..))
    · exact .inr (.inl (List.mem_cons_of_mem _ hx))
    · exact .inr (.inr hx)

end Names

theorem eliminateExact_placed {s : IntegerSet} {n : Nat} {pending : List String}
    (hs : s.WellFormed) : Placed (eliminateExact n s pending) := by
  induction n generalizing s pending with
  | zero => exact .ok
  | succ n ih =>
    unfold eliminateExact
    split
    · exact .ok
    · refine (IntegerSet.projectOut_placed hs).bind_of_ok fun t ht => ?_
      exact ih (IntegerSet.projectOut_spec hs ht).1

theorem accessRange_fails {E : SetError → Prop} {domain : IntegerSet} {index : List Expr}
    (hd : domain.WellFormed) (hoverflow : E .overflow) (htrap : E .trap)
    (hrepeated : ∀ x, E (.duplicateName x))
    (heliminate : ∀ s n pending, s.WellFormed → FailsOnly E (eliminateExact n s pending)) :
    FailsOnly E (accessRange domain index) := by
  have hnormal (c : Constraint) : FailsOnly E c.normalize :=
    Constraint.normalize_traps.mono fun e he => he ▸ htrap
  refine (lowerIndices_overflows.mono fun e he => he ▸ hoverflow).bind_of_ok fun o ho => ?_
  split
  · exact .ok
  · next found state =>
    have hax := lowerIndices_spec Lowering.Sound.start ho
    have htaken := (taken_of_lowerIndices Lowering.Sound.start ho).2
    refine FailsOnly.bind_of_ok (Space.ofNames_fails.mono ?_) fun lifted hlifted => ?_
    · rintro _ ⟨x, rfl⟩
      exact hrepeated x
    obtain ⟨rfl, hdistinct⟩ := Space.ofNames_eq_ok hlifted
    refine (IntegerSet.intersect_safe (.univ hdistinct) hd).bind_of_ok fun start hstart => ?_
    obtain ⟨hwf, hspace, -⟩ := IntegerSet.intersect_spec (.univ hdistinct) hd hstart
    have hcs : ∀ c ∈ found.map Prod.snd ++ state.constraints, c.WellFormed (· ∈ state.taken) :=
      List.forall_mem_append.mpr ⟨List.forall_mem_map.mpr hax.constraints, hax.sound.constraints⟩
    have hnames : ∀ x, x ∈ state.taken → x ∈ start.space.names := by
      intro x hx
      rw [hspace, Space.mem_names_align]
      rcases htaken x hx with hx | hx | hx
      · exact .inr hx
      · exact .inl (List.mem_append_right _ (List.mem_append_left _ hx))
      · exact .inl (List.mem_append_right _ (List.mem_append_right _ hx))
    refine (IntegerSet.addConstraints_safe hwf hcs hnames fun c _ => hnormal c).bind_of_ok
      fun s hs => ?_
    exact (heliminate s _ _ (IntegerSet.addConstraints_spec hwf hcs hs).1).map

theorem accessRange_placed {domain : IntegerSet} {index : List Expr} (hd : domain.WellFormed) :
    Placed (accessRange domain index) :=
  accessRange_fails hd (by simp) (by simp) (by simp) fun _ _ _ => eliminateExact_placed

end Expr

end LoopAudit
