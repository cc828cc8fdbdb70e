import LoopAudit.Proofs.Exactness

/-! The representation that the operations keep. Spaces, forms and constraints are closed under
their own operations; conjunctions and sets over them store normal forms only, no two of them
parallel, and all pieces of a set share its space. A constraint that cannot be added therefore
changes nothing. -/

namespace LoopAudit

inductive Space.Built : Space → Prop
  | ofNames {params dims : List String} {s : Space} :
      Space.ofNames params dims = .ok s → Space.Built s
  | align {s t : Space} : Space.Built s → Space.Built t → Space.Built (s.align t)
  | without {s : Space} {names : List String} : Space.Built s → Space.Built (s.without names)
  | withDim {s t : Space} {x : String} : Space.Built s → s.withDim x = .ok t → Space.Built t
  | ofConjunction {b : Conjunction} : b.Built → Space.Built b.space
  | ofSet {s : IntegerSet} : s.Built → Space.Built s.space

mutual

inductive Affine.Built : Affine → Prop
  | const (k : Int) : Affine.Built (.const k)
  | term (x : String) (c : Int) : Affine.Built (.term x c)
  | addTerm {e f : Affine} {x : String} {c : Int} :
      Affine.Built e → e.addTerm x c = .ok f → Affine.Built f
  | addConstant {e f : Affine} {k : Int} :
      Affine.Built e → e.addConstant k = .ok f → Affine.Built f
  | add {e f g : Affine} : Affine.Built e → Affine.Built f → e.add f = .ok g → Affine.Built g
  | sub {e f g : Affine} : Affine.Built e → Affine.Built f → e.sub f = .ok g → Affine.Built g
  | scale {e f : Affine} {k : Int} : Affine.Built e → e.scale k = .ok f → Affine.Built f
  | substitute {e f g : Affine} {x : String} :
      Affine.Built e → Affine.Built f → e.substitute x f = .ok g → Affine.Built g
  | ofConstraint {c : Constraint} : Constraint.Built c → Affine.Built c.form

inductive Constraint.Built : Constraint → Prop
  | eq {e : Affine} : Affine.Built e → Constraint.Built (.eq e)
  | ge {e : Affine} : Affine.Built e → Constraint.Built (.ge e)
  | divisible {e : Affine} {m : Int} {c : Constraint} :
      Affine.Built e → Constraint.divisible e m = .ok c → Constraint.Built c
  | le {e f : Affine} {c : Constraint} :
      Affine.Built e → Affine.Built f → Constraint.le e f = .ok c → Constraint.Built c
  | lt {e f : Affine} {c : Constraint} :
      Affine.Built e → Affine.Built f → Constraint.lt e f = .ok c → Constraint.Built c
  | equal {e f : Affine} {c : Constraint} :
      Affine.Built e → Affine.Built f → Constraint.equal e f = .ok c → Constraint.Built c
  | normalize {c d : Constraint} :
      Constraint.Built c → c.normalize = .ok (.proper d) → Constraint.Built d
  | negate {c d : Constraint} {ds : List Constraint} :
      Constraint.Built c → c.negate = .ok ds → d ∈ ds → Constraint.Built d
  | substitute {c d : Constraint} {x : String} {f : Affine} :
      Constraint.Built c → Affine.Built f → c.substitute x f = .ok d → Constraint.Built d
  | ofConjunction {b : Conjunction} {c : Constraint} :
      b.Built → c ∈ b.constraints → Constraint.Built c

end

theorem Space.Built.distinct {s : Space} (h : s.Built) : s.Distinct := by
  induction h with
  | ofNames h => exact (Space.ofNames_eq_ok h).2
  | align _ _ hs _ => exact hs.align
  | without _ hs => exact hs.without
  | withDim _ h hs => exact hs.withDim h
  | ofConjunction h => exact h.wellFormed.distinct
  | ofSet h => exact h.wellFormed.distinct

mutual

theorem Affine.Built.over {e : Affine} : e.Built → e.Over fun _ => True
  | .const k => .const k
  | .term x c => .term trivial c
  | .addTerm he h => (Affine.addTerm_spec he.over trivial h).1
  | .addConstant he h => (Affine.addConstant_spec he.over h).1
  | .add he hf h => (Affine.add_spec he.over hf.over h).1
  | .sub he hf h => (Affine.sub_spec he.over hf.over h).1
  | .scale he h => (Affine.scale_spec he.over h).1
  | .substitute he hf h => (Affine.substitute_spec he.over hf.over (fun _ _ _ => trivial) h).1
  | .ofConstraint hc => hc.proper.form

theorem Constraint.Built.proper {c : Constraint} : c.Built → c.Proper
  | .eq he => .eq he.over
  | .ge he => .ge he.over
  | .divisible he h => (Constraint.divisible_spec he.over h).1
  | .le he hf h => (Constraint.le_spec he.over hf.over h).1
  | .lt he hf h => (Constraint.lt_spec he.over hf.over h).1
  | .equal he hf h => (Constraint.equal_spec he.over hf.over h).1
  | .normalize hc h => (Constraint.normalize_eq_proper hc.proper h).1.toWellFormed
  | .negate hc h hd => (Constraint.negate_spec hc.proper h).1 _ hd
  | .substitute hc hf h =>
    (Constraint.substitute_spec hc.proper hf.over (fun _ _ _ => trivial) h).1
  | .ofConjunction hb hc => (hb.wellFormed.constraint hc).toWellFormed.mono fun _ _ => trivial

end

/-- What every conjunction stores: normal forms over its own names, at most one of several parallel
constraints, and nothing at all once it is a contradiction. -/
structure Conjunction.Invariant (b : Conjunction) : Prop where
  distinct : b.space.names.Nodup
  scope : ∀ c ∈ b.constraints, ∀ x ∈ c.form.vars, x ∈ b.space.names
  nonzero : ∀ c ∈ b.constraints, ∀ t ∈ c.form.terms, t.2 ≠ 0
  nonconstant : ∀ c ∈ b.constraints, c.form.terms ≠ []
  normal : ∀ c ∈ b.constraints, c.normalize = .ok (.proper c)
  modulus : ∀ c ∈ b.constraints, ∀ m, c.relation = .mod m → 2 ≤ m
  apart : b.constraints.Pairwise fun c d =>
    ¬ (c.relation = d.relation ∧ c.form.terms = d.form.terms)
  contradiction : b.isContradictory = true → b.constraints = []

structure IntegerSet.Invariant (s : IntegerSet) : Prop where
  distinct : s.space.names.Nodup
  space : ∀ b ∈ s.pieces, b.space = s.space
  feasible : ∀ b ∈ s.pieces, b.isContradictory = false
  pieces : ∀ b ∈ s.pieces, b.Invariant

theorem Conjunction.WellFormed.invariant {b : Conjunction} (hb : b.WellFormed) : b.Invariant where
  distinct := hb.distinct
  scope _ hc := (hb.constraint hc).form.within
  nonzero _ hc := (hb.constraint hc).form.canonical.2
  nonconstant _ hc := (hb.constraint hc).terms_ne_nil
  normal _ hc := (hb.constraint hc).fixed
  modulus _ hc _ hm := ((hb.constraint hc).mod_range hm).1
  apart := hb.system.apart.imp fun hcd h => hcd (System.parallel_iff.mpr h)
  contradiction := hb.cleared

theorem IntegerSet.WellFormed.invariant {s : IntegerSet} (hs : s.WellFormed) : s.Invariant where
  distinct := hs.distinct
  space b hb := (hs.pieces b hb).2
  feasible := hs.feasible
  pieces b hb := (hs.pieces b hb).1.invariant

section InPlace

variable {c : Constraint} {b : Conjunction} {bs : List Conjunction} {s : IntegerSet} {e : SetError}

theorem Conjunction.constrain_of_fault (h : (b.constrain c).2 = some e) :
    b.constrain c = (b, some e) := by
  unfold constrain at h ⊢
  cases hfind : c.form.vars.find? fun x => !b.space.contains x with
  | some x =>
    rw [hfind] at h
    exact congrArg (b, ·) h
  | none =>
    simp only [hfind] at h ⊢
    split_ifs at h ⊢ with hb
    cases hins : b.constraints.insert c with
    | error fault =>
      rw [hins] at h
      exact congrArg (b, ·) h
    | ok o => cases o <;> simp [hins] at h

/-- Whether a constraint can be added depends on the space and the constraint alone, unless the
conjunction is a contradiction already. -/
theorem Conjunction.constrain_fault (hb : b.isContradictory = false) : (b.constrain c).2 =
    match c.form.vars.find? fun x => !b.space.contains x with
    | some x => some (.unknownVariable x)
    | none =>
      match c.normalize with
      | .error fault => some fault
      | .ok _ => none := by
  unfold constrain
  cases c.form.vars.find? fun x => !b.space.contains x with
  | some x => rfl
  | none =>
    simp only [hb]
    cases hins : b.constraints.insert c with
    | error fault =>
      rw [System.insert_eq_error.mp hins]
      rfl
    | ok o =>
      obtain ⟨hn, -⟩ | ⟨hn, -⟩ | ⟨d, hn, -⟩ := System.insert_eq_ok hins <;>
        rw [hn] <;> cases o <;> rfl

theorem IntegerSet.constrainEach_no_fault {space : Space}
    (hbs : ∀ b ∈ bs, b.space = space ∧ b.isContradictory = false)
    (hb : b.space = space ∧ b.isContradictory = false) (h : (b.constrain c).2 = none) :
    (constrainEach c bs).2 = none := by
  induction bs with
  | nil => rfl
  | cons b' bs ih =>
    obtain ⟨hb', hbs⟩ := List.forall_mem_cons.mp hbs
    have hnone : (b'.constrain c).2 = none := by
      rw [Conjunction.constrain_fault hb'.2, hb'.1, ← hb.1, ← Conjunction.constrain_fault hb.2, h]
    rw [constrainEach_cons]
    rcases hcase : b'.constrain c with ⟨b'', _ | e⟩
    · exact ih hbs
    · rw [hcase] at hnone
      cases hnone

/-- Feasible pieces over one space refuse a constraint together, so the first of them does and
nothing has changed. -/
theorem IntegerSet.constrainEach_of_fault {space : Space}
    (hbs : ∀ b ∈ bs, b.space = space ∧ b.isContradictory = false)
    (h : (constrainEach c bs).2 = some e) : (constrainEach c bs).1 = bs := by
  cases bs with
  | nil => rfl
  | cons b bs =>
    obtain ⟨hb, hbs⟩ := List.forall_mem_cons.mp hbs
    rw [constrainEach_cons] at h ⊢
    rcases hcase : b.constrain c with ⟨b', _ | e'⟩
    · have hnone := constrainEach_no_fault hbs hb (congrArg Prod.snd hcase)
      rw [hcase] at h
      cases hnone.symm.trans h
    · have hsame := Conjunction.constrain_of_fault (congrArg Prod.snd hcase)
      cases hcase.symm.trans hsame
      rfl

-- Over different spaces, a later piece may refuse what an earlier one has taken.
example :
    let c : Constraint := .ge (.var "j")
    IntegerSet.constrainEach c [.univ ⟨[], ["i", "j"]⟩, .univ ⟨[], ["i"]⟩] =
      ([⟨⟨[], ["i", "j"]⟩, [c], false⟩, .univ ⟨[], ["i"]⟩], some (.unknownVariable "j")) := rfl

theorem IntegerSet.constrain_of_fault (hs : s.Invariant) (h : (s.constrain c).2 = some e) :
    s.constrain c = (s, some e) := by
  unfold constrain at h ⊢
  rcases hcase : constrainEach c s.pieces with ⟨bs, _ | e'⟩
  · rw [hcase] at h
    cases h
  · rw [hcase] at h
    cases h
    have hsame := constrainEach_of_fault (fun b hb => ⟨hs.space b hb, hs.feasible b hb⟩)
      (congrArg Prod.snd hcase)
    rw [hcase] at hsame
    cases hsame
    rfl

end InPlace

/-- Whatever sequence of operations made them, spaces declare every name once, forms are canonical,
and conjunctions and sets keep their representation. A constraint that a conjunction or a set
refuses leaves it exactly as it was. -/
theorem representation_kept :
    (∀ space : Space, space.Built → space.names.Nodup) ∧
      (∀ e : Affine, e.Built → e.Canonical) ∧
      (∀ c : Constraint, c.Built → c.Proper) ∧
      (∀ b : Conjunction, b.Built → b.Invariant) ∧
      (∀ s : IntegerSet, s.Built → s.Invariant) ∧
      (∀ (b : Conjunction) (c : Constraint), b.addConstraint c = outcome (b.constrain c) ∧
        ∀ e, (b.constrain c).2 = some e → (b.constrain c).1 = b) ∧
      ∀ (s : IntegerSet) (c : Constraint), s.addConstraint c = outcome (s.constrain c) ∧
        (s.Built → ∀ e, (s.constrain c).2 = some e → (s.constrain c).1 = s) := by
  refine ⟨fun _ h => h.distinct, fun _ h => h.over.canonical, fun _ h => h.proper,
    fun _ h => h.wellFormed.invariant, fun _ h => h.wellFormed.invariant, fun b c => ?_,
    fun s c => ?_⟩
  · refine ⟨rfl, fun e h => ?_⟩
    rw [Conjunction.constrain_of_fault h]
  · refine ⟨rfl, fun hs e h => ?_⟩
    rw [IntegerSet.constrain_of_fault hs.wellFormed.invariant h]

def IntegerSet.belowNOrEven : IntegerSet :=
  ⟨⟨["n"], ["i"]⟩,
    [⟨⟨["n"], ["i"]⟩, [.ge ⟨[("i", 1)], 0⟩, .ge ⟨[("i", -1), ("n", 1)], -1⟩], false⟩,
      ⟨⟨["n"], ["i"]⟩, [⟨.mod 2, ⟨[("i", 1)], 0⟩⟩], false⟩]⟩

theorem IntegerSet.belowNOrEven_built : belowNOrEven.Built := by
  have h : belowN.union evens = .ok belowNOrEven := rfl
  exact .union belowN_built evens_built h

theorem IntegerSet.belowNOrEven_representation :
    belowNOrEven.Invariant ∧
      belowNOrEven.addConstraint (.ge (.var "k")) = .error (.unknownVariable "k") ∧
      (belowNOrEven.constrain (.ge (.var "k"))).1 = belowNOrEven := by
  obtain ⟨-, -, -, -, hset, -, hatomic⟩ := representation_kept
  have hfault : (belowNOrEven.constrain (.ge (.var "k"))).2 = some (.unknownVariable "k") := rfl
  refine ⟨hset _ belowNOrEven_built, rfl, ?_⟩
  exact (hatomic belowNOrEven (.ge (.var "k"))).2 belowNOrEven_built _ hfault

end LoopAudit
