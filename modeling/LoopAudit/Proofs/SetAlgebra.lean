import LoopAudit.IntegerSet
import LoopAudit.Proofs.Search

/-! Integer sets as sets of assignments: every operation is exact and keeps the pieces of its result
in the space of the result, and the queries decide. -/

namespace LoopAudit

open Fallible

variable {V : String → Prop} {a b c : Conjunction} {d : Constraint} {cs : List Constraint}
  {bs pieces : List Conjunction} {space : Space} {names : List String} {v : Bool}
  {ρ : String → Int}

namespace Conjunction

def PiecesOver (space : Space) (bs : List Conjunction) : Prop :=
  ∀ b ∈ bs, b.WellFormed ∧ b.space = space

theorem PiecesOver.append (hb : PiecesOver space bs) (hp : PiecesOver space pieces) :
    PiecesOver space (bs ++ pieces) :=
  fun b h => (List.mem_append.mp h).elim (hb b) (hp b)

theorem isContradictory_of_holds (h : b.Holds ρ) : b.isContradictory = false := by
  cases hb : b.isContradictory with
  | false => rfl
  | true => exact absurd h (not_holds_of_isContradictory hb)

theorem rehome_of_space_eq (h : b.space = space) : b.rehome space = .ok b := by
  obtain rfl : b.space = space := h
  rw [rehome, Space.find?_not_contains_eq_none.mpr fun _ hx => hx]

theorem nonemptyWith_spec (hb : b.WellFormed) (hcs : ∀ d ∈ cs, d.WellFormed V)
    (h : b.nonemptyWith cs = .ok pieces) :
    PiecesOver b.space pieces ∧
      ∀ ρ, (∃ p ∈ pieces, p.Holds ρ) ↔ b.Holds ρ ∧ ∃ d ∈ cs, d.Holds ρ := by
  induction cs generalizing pieces with
  | nil =>
    cases h
    exact ⟨nofun, fun ρ => by simp⟩
  | cons d cs ih =>
    obtain ⟨hd, hcs⟩ := List.forall_mem_cons.mp hcs
    simp only [nonemptyWith, bind_eq_ok] at h
    obtain ⟨piece, hpiece, empty, hempty, rest, hrest, h⟩ := h
    obtain ⟨hwf, hspace, hholds⟩ := addConstraint_spec hb hd hpiece
    obtain ⟨hover, hiff⟩ := ih hcs hrest
    have hdecides := isEmpty_spec hwf hempty
    have hcons (ρ : String → Int) : (piece.Holds ρ ∨ ∃ p ∈ rest, p.Holds ρ) ↔
        b.Holds ρ ∧ ∃ d' ∈ d :: cs, d'.Holds ρ := by
      rw [hholds, hiff, List.exists_mem_cons_iff, and_or_left, and_comm]
    cases h
    cases empty with
    | true =>
      refine ⟨hover, fun ρ => ?_⟩
      rw [← hcons]
      simp [hdecides.mp rfl]
    | false =>
      refine ⟨List.forall_mem_cons.mpr ⟨⟨hwf, hspace⟩, hover⟩, fun ρ => ?_⟩
      rw [← hcons]
      simp

theorem violations_spec (ha : a.WellFormed) (hcs : ∀ d ∈ cs, d.WellFormed V)
    (h : a.violations cs = .ok pieces) :
    PiecesOver a.space pieces ∧
      ∀ ρ, (∃ p ∈ pieces, p.Holds ρ) ↔ a.Holds ρ ∧ ∃ d ∈ cs, ¬ d.Holds ρ := by
  induction cs generalizing a pieces with
  | nil =>
    cases h
    exact ⟨nofun, fun ρ => by simp⟩
  | cons d cs ih =>
    obtain ⟨hd, hcs⟩ := List.forall_mem_cons.mp hcs
    unfold violations at h
    split_ifs at h with hcontra
    · cases h
      exact ⟨nofun, fun ρ => by simp [not_holds_of_isContradictory hcontra]⟩
    · simp only [bind_eq_ok] at h
      obtain ⟨alternatives, halt, found, hfound, a', ha', rest, hrest, h⟩ := h
      cases h
      obtain ⟨hdwf, hdiff⟩ := Constraint.negate_spec hd halt
      obtain ⟨hover, hiff⟩ := nonemptyWith_spec ha hdwf hfound
      obtain ⟨hwf', hspace', hholds'⟩ := addConstraint_spec ha hd ha'
      obtain ⟨hover', hiff'⟩ := ih hwf' hcs hrest
      refine ⟨hover.append (hspace' ▸ hover'), fun ρ => ?_⟩
      -- A violation of the first constraint is found now; the others are sought where it holds.
      have happend : (∃ p ∈ found ++ rest, p.Holds ρ) ↔
          (∃ p ∈ found, p.Holds ρ) ∨ ∃ p ∈ rest, p.Holds ρ := by
        simp only [List.mem_append, or_and_right, exists_or]
      rw [happend, hiff, hiff', hdiff, hholds', List.exists_mem_cons_iff]
      tauto

theorem subtract_spec (ha : a.WellFormed) (hb : b.WellFormed) (h : a.subtract b = .ok pieces) :
    PiecesOver (a.space.align b.space) pieces ∧
      ∀ ρ, (∃ p ∈ pieces, p.Holds ρ) ↔ a.Holds ρ ∧ ¬ b.Holds ρ := by
  obtain ⟨acc, hacc, h⟩ := bind_eq_ok.mp h
  obtain ⟨hwf, rfl⟩ := rehome_spec ha ha.distinct.align hacc
  split_ifs at h with hbc
  · cases h
    refine ⟨List.forall_mem_singleton.mpr ⟨hwf, rfl⟩, fun ρ => ?_⟩
    simp only [List.mem_singleton, exists_eq_left]
    exact (and_iff_left (not_holds_of_isContradictory hbc)).symm
  · obtain ⟨hover, hiff⟩ :=
      violations_spec hwf (fun d hd => (hb.constraint hd).toWellFormed) h
    refine ⟨hover, fun ρ => ?_⟩
    rw [hiff, holds_iff_constraints (b := b) (by simpa using hbc)]
    simp [Holds]

theorem irredundant_sublist {kept out : List Constraint} (h : irredundant space kept cs = .ok out) :
    out.Sublist (kept ++ cs) := by
  induction cs generalizing kept with
  | nil =>
    cases h
    simp
  | cons d cs ih =>
    simp only [irredundant, bind_eq_ok] at h
    obtain ⟨alternatives, -, excluded, -, h⟩ := h
    split_ifs at h
    · exact (ih h).trans (List.Sublist.append_left (List.sublist_cons_self d cs) kept)
    · simpa using ih h

theorem removeRedundancies_wellFormed (hb : b.WellFormed) (h : b.removeRedundancies = .ok c) :
    c.WellFormed ∧ c.space = b.space := by
  obtain ⟨empty, -, h⟩ := bind_eq_ok.mp h
  split_ifs at h
  · cases h
    exact ⟨.empty hb.distinct, rfl⟩
  · obtain ⟨out, hout, h⟩ := bind_eq_ok.mp h
    cases h
    have hsub : out.Sublist b.constraints := by simpa using irredundant_sublist hout
    refine ⟨⟨hb.distinct, ⟨fun d hd => ?_, List.Pairwise.sublist hsub hb.system.apart⟩, nofun⟩, rfl⟩
    exact hb.constraint (hsub.subset hd)

end Conjunction

namespace IntegerSet

open Conjunction (PiecesOver AgreeOff)

variable {s t u : IntegerSet} {x : String}

structure WellFormed (s : IntegerSet) : Prop where
  distinct : s.space.Distinct
  pieces : PiecesOver s.space s.pieces
  feasible : ∀ b ∈ s.pieces, b.isContradictory = false

theorem WellFormed.empty (h : space.Distinct) : (IntegerSet.empty space).WellFormed :=
  ⟨h, nofun, nofun⟩

theorem not_mem_empty : ¬ (empty space).Mem ρ := by
  rintro ⟨b, ⟨⟩, -⟩

theorem WellFormed.univ (h : space.Distinct) : (IntegerSet.univ space).WellFormed :=
  ⟨h, List.forall_mem_singleton.mpr ⟨.univ h, rfl⟩, List.forall_mem_singleton.mpr rfl⟩

theorem mem_univ : (univ space).Mem ρ :=
  ⟨.univ space, List.mem_singleton.mpr rfl, Conjunction.univ_holds⟩

theorem ofConjunction_spec (hb : b.WellFormed) :
    (ofConjunction b).WellFormed ∧ ∀ ρ, (ofConjunction b).Mem ρ ↔ b.Holds ρ := by
  cases hc : b.isContradictory with
  | true =>
    refine ⟨⟨hb.distinct, by simp [ofConjunction, hc, PiecesOver], by simp [ofConjunction, hc]⟩,
      fun ρ => ?_⟩
    simp [Mem, ofConjunction, hc, Conjunction.not_holds_of_isContradictory hc]
  | false =>
    refine ⟨⟨hb.distinct, by simp [ofConjunction, hc, PiecesOver, hb], by simp [ofConjunction, hc]⟩,
      fun ρ => ?_⟩
    simp [Mem, ofConjunction, hc]

theorem WellFormed.mem_congr {σ : String → Int} (hs : s.WellFormed)
    (h : ∀ x ∈ s.space.names, ρ x = σ x) : s.Mem ρ ↔ s.Mem σ := by
  refine exists_congr fun b => and_congr_right fun hb => ?_
  obtain ⟨hwf, hspace⟩ := hs.pieces b hb
  exact hwf.holds_congr (hspace ▸ h)

theorem addPiece_spec (hs : s.WellFormed) (hb : b.WellFormed) (h : s.addPiece b = .ok t) :
    t.WellFormed ∧ t.space = s.space ∧ ∀ ρ, t.Mem ρ ↔ s.Mem ρ ∨ b.Holds ρ := by
  unfold addPiece at h
  split_ifs at h with hc
  · cases h
    exact ⟨hs, rfl, fun ρ => by simp [Conjunction.not_holds_of_isContradictory hc]⟩
  · obtain ⟨b', hb', h⟩ := bind_eq_ok.mp h
    obtain ⟨hwf, rfl⟩ := Conjunction.rehome_spec hb hs.distinct hb'
    cases h
    refine ⟨⟨hs.distinct, hs.pieces.append ?_, List.forall_mem_append.mpr ⟨hs.feasible, ?_⟩⟩, rfl,
      fun ρ => ?_⟩
    · exact List.forall_mem_singleton.mpr ⟨hwf, rfl⟩
    · exact List.forall_mem_singleton.mpr (Bool.eq_false_iff.mpr hc)
    · simp [Mem, or_and_right, exists_or, Conjunction.Holds]

theorem addPieces_spec (hs : s.WellFormed) (hbs : ∀ b ∈ bs, b.WellFormed)
    (h : s.addPieces bs = .ok t) :
    t.WellFormed ∧ t.space = s.space ∧ ∀ ρ, t.Mem ρ ↔ s.Mem ρ ∨ ∃ b ∈ bs, b.Holds ρ := by
  have hstep (ρ : String → Int) := foldlM_gathers
    (I := fun t => t.WellFormed ∧ t.space = s.space) (Q := fun t => t.Mem ρ)
    (R := fun b => b.Holds ρ)
    (fun s₁ b s₂ hb hI h₂ => by
      obtain ⟨hwf, hspace, hmem⟩ := addPiece_spec hI.1 (hbs b hb) h₂
      exact ⟨⟨hwf, hspace.trans hI.2⟩, hmem ρ⟩) ⟨hs, rfl⟩ h
  exact ⟨(hstep 0).1.1, (hstep 0).1.2, fun ρ => (hstep ρ).2⟩

theorem ofPieces_spec (hspace : space.Distinct) (hbs : ∀ b ∈ bs, b.WellFormed)
    (h : ofPieces space bs = .ok t) :
    t.WellFormed ∧ t.space = space ∧ ∀ ρ, t.Mem ρ ↔ ∃ b ∈ bs, b.Holds ρ := by
  obtain ⟨hwf, hsp, hmem⟩ := addPieces_spec (.empty hspace) hbs h
  exact ⟨hwf, hsp, fun ρ => (hmem ρ).trans (or_iff_right not_mem_empty)⟩

theorem addPieces_append {kept : List Conjunction} (hspace : ∀ b ∈ bs, b.space = space)
    (hfeasible : ∀ b ∈ bs, b.isContradictory = false) :
    addPieces ⟨space, kept⟩ bs = .ok ⟨space, kept ++ bs⟩ := by
  induction bs generalizing kept with
  | nil => simp [addPieces, pure, Except.pure]
  | cons b bs ih =>
    obtain ⟨hb, hbs⟩ := List.forall_mem_cons.mp hspace
    obtain ⟨hb', hbs'⟩ := List.forall_mem_cons.mp hfeasible
    have hone : addPiece ⟨space, kept⟩ b = .ok ⟨space, kept ++ [b]⟩ := by
      rw [addPiece, if_neg (by simp [hb']), Conjunction.rehome_of_space_eq hb]
      rfl
    rw [addPieces, List.foldlM_cons, hone]
    change addPieces ⟨space, kept ++ [b]⟩ bs = _
    rw [ih hbs hbs', List.append_assoc, List.singleton_append]

theorem slab_spec {lo hi : Affine} (hspace : space.Distinct) (hlo : lo.Over V) (hhi : hi.Over V)
    (hx : V x) (h : slab space x lo hi = .ok t) :
    t.WellFormed ∧ t.space = space ∧ ∀ ρ, t.Mem ρ ↔ lo.eval ρ ≤ ρ x ∧ ρ x < hi.eval ρ := by
  simp only [slab, bind_eq_ok] at h
  obtain ⟨above, habove, below, hbelow, b, hb, h⟩ := h
  cases h
  obtain ⟨hawf, haiff⟩ := Constraint.le_spec hlo (Affine.Over.term hx 1) habove
  obtain ⟨hbwf, hbiff⟩ := Constraint.lt_spec (Affine.Over.term hx 1) hhi hbelow
  obtain ⟨hwf, hsp, hholds⟩ := Conjunction.ofConstraints_spec hspace
    (List.forall_mem_cons.mpr ⟨hawf, List.forall_mem_singleton.mpr hbwf⟩) hb
  obtain ⟨hset, hmem⟩ := ofConjunction_spec hwf
  refine ⟨hset, hsp, fun ρ => ?_⟩
  rw [hmem, hholds, List.forall_mem_cons, List.forall_mem_singleton, haiff, hbiff,
    Affine.eval_term, one_mul]

theorem mapM_rehome_spec (hspace : space.Distinct) (hs : s.WellFormed)
    (h : s.pieces.mapM (·.rehome space) = .ok bs) :
    PiecesOver space bs ∧ (∀ b ∈ bs, b.isContradictory = false) ∧
      ∀ ρ, (∃ b ∈ bs, b.Holds ρ) ↔ s.Mem ρ := by
  have hspec {p q : Conjunction} (hp : p ∈ s.pieces) (hq : p.rehome space = .ok q) :=
    Conjunction.rehome_spec (hs.pieces p hp).1 hspace hq
  refine ⟨fun q hq => ?_, fun q hq => ?_, fun ρ => ⟨?_, ?_⟩⟩
  · obtain ⟨p, hp, hpq⟩ := exists_of_mapM_mem h hq
    obtain ⟨hwf, rfl⟩ := hspec hp hpq
    exact ⟨hwf, rfl⟩
  · obtain ⟨p, hp, hpq⟩ := exists_of_mapM_mem h hq
    obtain ⟨-, rfl⟩ := hspec hp hpq
    exact hs.feasible p hp
  · rintro ⟨q, hq, hρ⟩
    obtain ⟨p, hp, hpq⟩ := exists_of_mapM_mem h hq
    obtain ⟨-, rfl⟩ := hspec hp hpq
    exact ⟨p, hp, hρ⟩
  · rintro ⟨p, hp, hρ⟩
    obtain ⟨q, hq, hpq⟩ := exists_mapM_mem h hp
    obtain ⟨-, rfl⟩ := hspec hp hpq
    exact ⟨_, hq, hρ⟩

theorem rehome_spec (hspace : space.Distinct) (hs : s.WellFormed) (h : s.rehome space = .ok t) :
    t.WellFormed ∧ t.space = space ∧ ∀ ρ, t.Mem ρ ↔ s.Mem ρ := by
  obtain ⟨bs, hbs, h⟩ := bind_eq_ok.mp h
  cases h
  obtain ⟨hover, hfeasible, hiff⟩ := mapM_rehome_spec hspace hs hbs
  exact ⟨⟨hspace, hover, hfeasible⟩, rfl, hiff⟩

theorem withDim_spec (hs : s.WellFormed) (h : s.withDim x = .ok t) :
    t.WellFormed ∧ s.space.withDim x = .ok t.space ∧ ∀ ρ, t.Mem ρ ↔ s.Mem ρ := by
  obtain ⟨space, hspace, h⟩ := bind_eq_ok.mp h
  obtain ⟨hwf, rfl, hmem⟩ := rehome_spec (hs.distinct.withDim hspace) hs h
  exact ⟨hwf, hspace, hmem⟩

theorem constrainEach_cons :
    constrainEach d (b :: bs) = match b.constrain d with
      | (b, some fault) => (b :: bs, some fault)
      | (b, none) => (b :: (constrainEach d bs).1, (constrainEach d bs).2) := rfl

theorem mapM_addConstraint_eq : bs.mapM (·.addConstraint d) = outcome (constrainEach d bs) := by
  induction bs with
  | nil => rfl
  | cons b bs ih =>
    rw [List.mapM_cons, ih, Conjunction.addConstraint, constrainEach_cons]
    rcases b.constrain d with ⟨b', _ | fault⟩
    · rcases constrainEach d bs with ⟨bs', _ | fault⟩ <;> rfl
    · rfl

theorem addConstraint_eq : s.addConstraint d =
    (fun bs => { s with pieces := bs.filter fun b => !b.isContradictory }) <$>
      s.pieces.mapM (·.addConstraint d) := by
  rw [mapM_addConstraint_eq, addConstraint, constrain]
  rcases constrainEach d s.pieces with ⟨bs, _ | fault⟩ <;> rfl

theorem addConstraint_spec (hs : s.WellFormed) (hd : d.WellFormed V)
    (h : s.addConstraint d = .ok t) :
    t.WellFormed ∧ t.space = s.space ∧ ∀ ρ, t.Mem ρ ↔ s.Mem ρ ∧ d.Holds ρ := by
  rw [addConstraint_eq] at h
  obtain ⟨bs, hbs, rfl⟩ := map_eq_ok.mp h
  have hspec {p q : Conjunction} (hp : p ∈ s.pieces) (hq : p.addConstraint d = .ok q) :=
    Conjunction.addConstraint_spec (hs.pieces p hp).1 hd hq
  refine ⟨⟨hs.distinct, fun q hq => ?_, fun q hq => ?_⟩, rfl, fun ρ => ⟨?_, ?_⟩⟩
  · obtain ⟨p, hp, hpq⟩ := exists_of_mapM_mem hbs (List.mem_filter.mp hq).1
    obtain ⟨hwf, hsp, -⟩ := hspec hp hpq
    exact ⟨hwf, hsp.trans (hs.pieces p hp).2⟩
  · simpa using (List.mem_filter.mp hq).2
  · rintro ⟨q, hq, hρ⟩
    obtain ⟨p, hp, hpq⟩ := exists_of_mapM_mem hbs (List.mem_filter.mp hq).1
    obtain ⟨hd, hp'⟩ := ((hspec hp hpq).2.2 ρ).mp hρ
    exact ⟨⟨p, hp, hp'⟩, hd⟩
  · rintro ⟨⟨p, hp, hp'⟩, hd'⟩
    obtain ⟨q, hq, hpq⟩ := exists_mapM_mem hbs hp
    have hρ : q.Holds ρ := ((hspec hp hpq).2.2 ρ).mpr ⟨hd', hp'⟩
    refine ⟨q, List.mem_filter.mpr ⟨hq, ?_⟩, hρ⟩
    simp [Conjunction.isContradictory_of_holds hρ]

theorem addConstraints_spec (hs : s.WellFormed) (hcs : ∀ d ∈ cs, d.WellFormed V)
    (h : cs.foldlM addConstraint s = .ok t) :
    t.WellFormed ∧ t.space = s.space ∧ ∀ ρ, t.Mem ρ ↔ s.Mem ρ ∧ ∀ d ∈ cs, d.Holds ρ := by
  have hstep (ρ : String → Int) := foldlM_restricts
    (I := fun t => t.WellFormed ∧ t.space = s.space) (Q := fun t => t.Mem ρ)
    (R := fun d => d.Holds ρ)
    (fun s₁ d s₂ hd hI h₂ => by
      obtain ⟨hwf, hspace, hmem⟩ := addConstraint_spec hI.1 (hcs d hd) h₂
      exact ⟨⟨hwf, hspace.trans hI.2⟩, hmem ρ⟩) ⟨hs, rfl⟩ h
  exact ⟨(hstep 0).1.1, (hstep 0).1.2, fun ρ => (hstep ρ).2⟩

section Operations

theorem union_spec (hs : s.WellFormed) (ht : t.WellFormed) (h : s.union t = .ok u) :
    u.WellFormed ∧ u.space = s.space.align t.space ∧ ∀ ρ, u.Mem ρ ↔ s.Mem ρ ∨ t.Mem ρ := by
  obtain ⟨s', hs', h⟩ := bind_eq_ok.mp h
  obtain ⟨hwf, hspace, hmem⟩ := rehome_spec hs.distinct.align hs hs'
  obtain ⟨hwf', hspace', hmem'⟩ := addPieces_spec hwf (fun b hb => (ht.pieces b hb).1) h
  refine ⟨hwf', hspace'.trans hspace, fun ρ => ?_⟩
  rw [hmem', hmem]
  exact Iff.rfl

theorem intersect_spec (hs : s.WellFormed) (ht : t.WellFormed) (h : s.intersect t = .ok u) :
    u.WellFormed ∧ u.space = s.space.align t.space ∧ ∀ ρ, u.Mem ρ ↔ s.Mem ρ ∧ t.Mem ρ := by
  have hstep (ρ : String → Int) := foldlM_gathers
    (I := fun u => u.WellFormed ∧ u.space = s.space.align t.space) (Q := fun u => u.Mem ρ)
    (R := fun pq => pq.1.Holds ρ ∧ pq.2.Holds ρ)
    (fun u₁ pq u₂ hpq hI h₂ => by
      obtain ⟨p, hp, q, hq, rfl⟩ : ∃ p ∈ s.pieces, ∃ q ∈ t.pieces, (p, q) = pq := by
        simpa using hpq
      obtain ⟨m, hm, h₂⟩ := bind_eq_ok.mp h₂
      obtain ⟨hwf, -, hholds⟩ :=
        Conjunction.intersect_spec (hs.pieces p hp).1 (ht.pieces q hq).1 hm
      obtain ⟨hwf', hspace', hmem'⟩ := addPiece_spec hI.1 hwf h₂
      exact ⟨⟨hwf', hspace'.trans hI.2⟩, (hmem' ρ).trans (or_congr Iff.rfl (hholds ρ))⟩)
    ⟨.empty hs.distinct.align, rfl⟩ h
  refine ⟨(hstep 0).1.1, (hstep 0).1.2, fun ρ => ?_⟩
  rw [(hstep ρ).2, or_iff_right not_mem_empty]
  constructor
  · rintro ⟨pq, hpq, hp, hq⟩
    obtain ⟨p, hp', q, hq', rfl⟩ : ∃ p ∈ s.pieces, ∃ q ∈ t.pieces, (p, q) = pq := by
      simpa using hpq
    exact ⟨⟨p, hp', hp⟩, q, hq', hq⟩
  · rintro ⟨⟨p, hp, hpρ⟩, q, hq, hqρ⟩
    exact ⟨(p, q), by simpa using ⟨hp, hq⟩, hpρ, hqρ⟩

theorem intersectAll_spec {sets : List IntegerSet} (hs : s.WellFormed)
    (hsets : ∀ t ∈ sets, t.WellFormed) (h : sets.foldlM intersect s = .ok u) :
    u.WellFormed ∧ (∀ x, x ∈ u.space.dims ↔ x ∈ s.space.dims ∨ ∃ t ∈ sets, x ∈ t.space.dims) ∧
      (∀ x, x ∈ u.space.names ↔ x ∈ s.space.names ∨ ∃ t ∈ sets, x ∈ t.space.names) ∧
      ∀ ρ, u.Mem ρ ↔ s.Mem ρ ∧ ∀ t ∈ sets, t.Mem ρ := by
  have hstep {s₁ t s₂ : IntegerSet} (ht : t ∈ sets) (hs₁ : s₁.WellFormed)
      (h₂ : s₁.intersect t = .ok s₂) := intersect_spec hs₁ (hsets t ht) h₂
  have hmem (ρ : String → Int) := foldlM_restricts (I := WellFormed) (Q := fun u => u.Mem ρ)
    (R := fun t => t.Mem ρ)
    (fun s₁ t s₂ ht hI h₂ => ⟨(hstep ht hI h₂).1, (hstep ht hI h₂).2.2 ρ⟩) hs h
  have hdims (x : String) := foldlM_gathers (I := WellFormed) (Q := fun u => x ∈ u.space.dims)
    (R := fun t => x ∈ t.space.dims)
    (fun s₁ t s₂ ht hI h₂ => ⟨(hstep ht hI h₂).1, by
      rw [(hstep ht hI h₂).2.1, Space.mem_dims_align]⟩) hs h
  have hnames (x : String) := foldlM_gathers (I := WellFormed) (Q := fun u => x ∈ u.space.names)
    (R := fun t => x ∈ t.space.names)
    (fun s₁ t s₂ ht hI h₂ => ⟨(hstep ht hI h₂).1, by
      rw [(hstep ht hI h₂).2.1, Space.mem_names_align]⟩) hs h
  exact ⟨(hmem 0).1, fun x => (hdims x).2, fun x => (hnames x).2, fun ρ => (hmem ρ).2⟩

theorem projectOut_spec (hs : s.WellFormed) (h : s.projectOut names = .ok t) :
    t.WellFormed ∧ t.space = s.space.without names ∧
      ∀ ρ, t.Mem ρ ↔ ∃ σ, AgreeOff names σ ρ ∧ s.Mem σ := by
  have hstep (ρ : String → Int) := foldlM_gathers
    (I := fun t => t.WellFormed ∧ t.space = s.space.without names) (Q := fun t => t.Mem ρ)
    (R := fun p => ∃ σ, AgreeOff names σ ρ ∧ p.Holds σ)
    (fun t₁ p t₂ hp hI h₂ => by
      obtain ⟨m, hm, h₂⟩ := bind_eq_ok.mp h₂
      obtain ⟨hwf, hiff⟩ := Conjunction.projectOut_spec (hs.pieces p hp).1 hm
      obtain ⟨hwf', hspace', hmem'⟩ := addPieces_spec hI.1 (fun b hb => (hwf b hb).1) h₂
      exact ⟨⟨hwf', hspace'.trans hI.2⟩, (hmem' ρ).trans (or_congr Iff.rfl (hiff ρ))⟩)
    ⟨.empty hs.distinct.without, rfl⟩ h
  refine ⟨(hstep 0).1.1, (hstep 0).1.2, fun ρ => ?_⟩
  rw [(hstep ρ).2, or_iff_right not_mem_empty]
  constructor
  · rintro ⟨p, hp, σ, hσ, hpσ⟩
    exact ⟨σ, hσ, p, hp, hpσ⟩
  · rintro ⟨σ, hσ, p, hp, hpσ⟩
    exact ⟨p, hp, σ, hσ, hpσ⟩

theorem subtractPiece_spec (hbs : ∀ p ∈ bs, p.WellFormed) (hb : b.WellFormed)
    (h : subtractPiece bs b = .ok pieces) :
    (∀ p ∈ pieces, p.WellFormed) ∧
      ∀ ρ, (∃ p ∈ pieces, p.Holds ρ) ↔ (∃ p ∈ bs, p.Holds ρ) ∧ ¬ b.Holds ρ := by
  have hstep (ρ : String → Int) := foldlM_gathers
    (I := fun found => ∀ p ∈ found, p.WellFormed) (Q := fun found => ∃ p ∈ found, p.Holds ρ)
    (R := fun p => p.Holds ρ ∧ ¬ b.Holds ρ)
    (fun found p found' hp hI h₂ => by
      obtain ⟨m, hm, h₂⟩ := bind_eq_ok.mp h₂
      cases h₂
      obtain ⟨hover, hiff⟩ := Conjunction.subtract_spec (hbs p hp) hb hm
      refine ⟨List.forall_mem_append.mpr ⟨hI, fun q hq => (hover q hq).1⟩, ?_⟩
      rw [← hiff]
      simp only [List.mem_append, or_and_right, exists_or])
    (fun _ hp => absurd hp List.not_mem_nil) h
  refine ⟨(hstep 0).1, fun ρ => ?_⟩
  rw [(hstep ρ).2]
  simp only [List.not_mem_nil, false_and, exists_false, false_or]
  constructor
  · rintro ⟨p, hp, hpρ, hb'⟩
    exact ⟨⟨p, hp, hpρ⟩, hb'⟩
  · rintro ⟨⟨p, hp, hpρ⟩, hb'⟩
    exact ⟨p, hp, hpρ, hb'⟩

theorem subtract_spec (hs : s.WellFormed) (ht : t.WellFormed) (h : s.subtract t = .ok u) :
    u.WellFormed ∧ u.space = s.space.align t.space ∧ ∀ ρ, u.Mem ρ ↔ s.Mem ρ ∧ ¬ t.Mem ρ := by
  simp only [subtract, bind_eq_ok] at h
  obtain ⟨start, hstart, left, hleft, h⟩ := h
  obtain ⟨hover, -, hiff⟩ := mapM_rehome_spec hs.distinct.align hs hstart
  have hstep (ρ : String → Int) := foldlM_restricts
    (I := fun found => ∀ p ∈ found, p.WellFormed) (Q := fun found => ∃ p ∈ found, p.Holds ρ)
    (R := fun b => ¬ b.Holds ρ)
    (fun found b found' hb hI h₂ => by
      obtain ⟨hwf, hiff'⟩ := subtractPiece_spec hI (ht.pieces b hb).1 h₂
      exact ⟨hwf, hiff' ρ⟩)
    (fun p hp => (hover p hp).1) hleft
  obtain ⟨hwf, hspace, hmem⟩ := ofPieces_spec hs.distinct.align (hstep 0).1 h
  refine ⟨hwf, hspace, fun ρ => ?_⟩
  rw [hmem, (hstep ρ).2, hiff]
  simp [Mem]

theorem uncovered_sublist {before : List Conjunction} (h : uncovered before bs = .ok pieces) :
    pieces.Sublist bs := by
  induction bs generalizing before pieces with
  | nil =>
    cases h
    exact .slnil
  | cons p after ih =>
    simp only [uncovered, bind_eq_ok] at h
    obtain ⟨covered, -, rest, hrest, h⟩ := h
    cases h
    split_ifs
    · exact (ih hrest).cons p
    · exact (ih hrest).cons_cons p

theorem coalesce_wellFormed (hs : s.WellFormed) (h : s.coalesce = .ok t) : t.WellFormed := by
  simp only [coalesce, bind_eq_ok] at h
  obtain ⟨simplified, hsimp, left, hleft, h⟩ := h
  refine (ofPieces_spec hs.distinct (fun q hq => ?_) h).1
  have hq' := (List.mem_filter.mp ((uncovered_sublist hleft).subset hq)).1
  obtain ⟨p, hp, hpq⟩ := exists_of_mapM_mem hsimp hq'
  exact (Conjunction.removeRedundancies_wellFormed (hs.pieces p hp).1 hpq).1

end Operations

section Queries

theorem firstSample_spec {o : Option Point} (hbs : ∀ b ∈ bs, b.WellFormed)
    (h : firstSample bs = .ok o) :
    (∀ p, o = some p → ∃ b ∈ bs, p.coords.map Prod.fst = b.space.names ∧ b.Holds p.value) ∧
      (o = none → ∀ b ∈ bs, ∀ ρ, ¬ b.Holds ρ) := by
  induction bs with
  | nil =>
    cases h
    exact ⟨nofun, fun _ => nofun⟩
  | cons b bs ih =>
    obtain ⟨hb, hbs⟩ := List.forall_mem_cons.mp hbs
    obtain ⟨o', ho', h⟩ := bind_eq_ok.mp h
    cases o' with
    | some p =>
      cases h
      refine ⟨?_, nofun⟩
      rintro _ ⟨⟩
      exact ⟨b, List.mem_cons_self .., Conjunction.sample_eq_some hb ho'⟩
    | none =>
      obtain ⟨hsome, hnone⟩ := ih hbs h
      refine ⟨fun p hp => ?_, fun ho => ?_⟩
      · obtain ⟨b', hb', hholds⟩ := hsome p hp
        exact ⟨b', List.mem_cons_of_mem _ hb', hholds⟩
      · exact List.forall_mem_cons.mpr ⟨Conjunction.sample_eq_none hb ho', hnone ho⟩

theorem sample_spec {o : Option Point} (hs : s.WellFormed) (h : s.sample = .ok o) :
    (∀ p, o = some p → p.coords.map Prod.fst = s.space.names ∧ s.Mem p.value) ∧
      (o = none → ∀ ρ, ¬ s.Mem ρ) := by
  obtain ⟨hsome, hnone⟩ := firstSample_spec (fun b hb => (hs.pieces b hb).1) h
  refine ⟨fun p hp => ?_, fun ho ρ ⟨b, hb, hρ⟩ => hnone ho b hb ρ hρ⟩
  obtain ⟨b, hb, hnames, hholds⟩ := hsome p hp
  exact ⟨(hs.pieces b hb).2 ▸ hnames, b, hb, hholds⟩

theorem isEmpty_spec (hs : s.WellFormed) (h : s.isEmpty = .ok v) :
    v = true ↔ ∀ ρ, ¬ s.Mem ρ := by
  obtain ⟨o, ho, h⟩ := bind_eq_ok.mp h
  cases h
  obtain ⟨hsome, hnone⟩ := sample_spec hs ho
  cases o with
  | none => exact iff_of_true rfl (hnone rfl)
  | some p => exact iff_of_false Bool.false_ne_true fun hnot => hnot _ (hsome p rfl).2

theorem isSubset_spec (hs : s.WellFormed) (ht : t.WellFormed) (h : s.isSubset t = .ok v) :
    v = true ↔ ∀ ρ, s.Mem ρ → t.Mem ρ := by
  obtain ⟨u, hu, h⟩ := bind_eq_ok.mp h
  obtain ⟨hwf, -, hmem⟩ := subtract_spec hs ht hu
  rw [isEmpty_spec hwf h]
  simp only [hmem, not_and, not_not]

theorem isEqual_spec (hs : s.WellFormed) (ht : t.WellFormed) (h : s.isEqual t = .ok v) :
    v = true ↔ ∀ ρ, s.Mem ρ ↔ t.Mem ρ := by
  obtain ⟨w, hw, h⟩ := bind_eq_ok.mp h
  have hst := isSubset_spec hs ht hw
  cases w with
  | true =>
    rw [isSubset_spec ht hs h]
    exact ⟨fun hts ρ => ⟨hst.mp rfl ρ, hts ρ⟩, fun heq ρ => (heq ρ).mpr⟩
  | false =>
    cases h
    exact iff_of_false Bool.false_ne_true fun heq =>
      Bool.false_ne_true (hst.mpr fun ρ => (heq ρ).mp)

end Queries

end IntegerSet

end LoopAudit
