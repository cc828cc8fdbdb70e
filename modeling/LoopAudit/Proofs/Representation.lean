import LoopAudit.Proofs.Reader

/-! The conjunctions and sets that the operations build. Any sequence of operations starts from
spaces of distinct names and constraints in canonical form, and every result is well formed. -/

namespace LoopAudit

abbrev Constraint.Proper (c : Constraint) : Prop := c.WellFormed fun _ => True

theorem Constraint.proper_iff {c : Constraint} :
    c.Proper ↔ c.form.Canonical ∧ ∀ m ∈ c.relation.modulus?, 0 < m := by
  simp only [Relation.mem_modulus?]
  exact ⟨fun h => ⟨h.form.canonical, h.modulus_pos⟩, fun h => ⟨⟨h.1, fun _ _ => trivial⟩, h.2⟩⟩

instance (c : Constraint) : Decidable c.Proper := decidable_of_iff _ Constraint.proper_iff.symm

mutual

inductive Conjunction.Built : Conjunction → Prop
  | univ {space : Space} : space.Distinct → Conjunction.Built (.univ space)
  | empty {space : Space} : space.Distinct → Conjunction.Built (.empty space)
  | ofConstraints {space : Space} {cs : List Constraint} {b : Conjunction} : space.Distinct →
      (∀ c ∈ cs, c.Proper) → Conjunction.ofConstraints space cs = .ok b → Conjunction.Built b
  | addConstraint {b b' : Conjunction} {c : Constraint} :
      Conjunction.Built b → c.Proper → b.addConstraint c = .ok b' → Conjunction.Built b'
  | rehome {b b' : Conjunction} {space : Space} :
      Conjunction.Built b → space.Distinct → b.rehome space = .ok b' → Conjunction.Built b'
  | intersect {a b c : Conjunction} :
      Conjunction.Built a → Conjunction.Built b → a.intersect b = .ok c → Conjunction.Built c
  | projectOut {b p : Conjunction} {names : List String} {pieces : List Conjunction} :
      Conjunction.Built b → b.projectOut names = .ok pieces → p ∈ pieces → Conjunction.Built p
  | subtract {a b p : Conjunction} {pieces : List Conjunction} : Conjunction.Built a →
      Conjunction.Built b → a.subtract b = .ok pieces → p ∈ pieces → Conjunction.Built p
  | removeRedundancies {b b' : Conjunction} :
      Conjunction.Built b → b.removeRedundancies = .ok b' → Conjunction.Built b'
  | piece {s : IntegerSet} {b : Conjunction} :
      IntegerSet.Built s → b ∈ s.pieces → Conjunction.Built b

inductive IntegerSet.Built : IntegerSet → Prop
  | univ {space : Space} : space.Distinct → IntegerSet.Built (.univ space)
  | empty {space : Space} : space.Distinct → IntegerSet.Built (.empty space)
  | ofConjunction {b : Conjunction} : Conjunction.Built b → IntegerSet.Built (.ofConjunction b)
  | ofPieces {space : Space} {bs : List Conjunction} {s : IntegerSet} : space.Distinct →
      (∀ b ∈ bs, Conjunction.Built b) → IntegerSet.ofPieces space bs = .ok s → IntegerSet.Built s
  | slab {space : Space} {x : String} {lo hi : Affine} {s : IntegerSet} : space.Distinct →
      lo.Canonical → hi.Canonical → IntegerSet.slab space x lo hi = .ok s → IntegerSet.Built s
  | addConstraint {s s' : IntegerSet} {c : Constraint} :
      IntegerSet.Built s → c.Proper → s.addConstraint c = .ok s' → IntegerSet.Built s'
  | withDim {s s' : IntegerSet} {x : String} :
      IntegerSet.Built s → s.withDim x = .ok s' → IntegerSet.Built s'
  | union {s t u : IntegerSet} :
      IntegerSet.Built s → IntegerSet.Built t → s.union t = .ok u → IntegerSet.Built u
  | intersect {s t u : IntegerSet} :
      IntegerSet.Built s → IntegerSet.Built t → s.intersect t = .ok u → IntegerSet.Built u
  | projectOut {s t : IntegerSet} {names : List String} :
      IntegerSet.Built s → s.projectOut names = .ok t → IntegerSet.Built t
  | projectOntoDims {s t : IntegerSet} {keep : List String} :
      IntegerSet.Built s → s.projectOntoDims keep = .ok t → IntegerSet.Built t
  | subtract {s t u : IntegerSet} :
      IntegerSet.Built s → IntegerSet.Built t → s.subtract t = .ok u → IntegerSet.Built u
  | coalesce {s t : IntegerSet} : IntegerSet.Built s → s.coalesce = .ok t → IntegerSet.Built t
  | parse {src : String} {s : IntegerSet} : IntegerSet.parse src = .ok s → IntegerSet.Built s

end

theorem Conjunction.Built.remade {b : Conjunction} (hspace : b.space.Distinct)
    (hcs : ∀ c ∈ b.constraints, c.Proper)
    (h : Conjunction.ofConstraints b.space b.constraints = .ok b) : b.Built :=
  .ofConstraints hspace hcs h

theorem IntegerSet.Built.remade {s : IntegerSet} (hspace : s.space.Distinct)
    (hpieces : ∀ b ∈ s.pieces, (∀ c ∈ b.constraints, c.Proper) ∧
      Conjunction.ofConstraints s.space b.constraints = .ok b)
    (h : IntegerSet.ofPieces s.space s.pieces = .ok s) : s.Built := by
  refine .ofPieces hspace (fun b hb => ?_) h
  obtain ⟨hcs, hof⟩ := hpieces b hb
  exact .ofConstraints hspace hcs hof

mutual

theorem Conjunction.Built.wellFormed {b : Conjunction} : b.Built → b.WellFormed
  | .univ hspace => .univ hspace
  | .empty hspace => .empty hspace
  | .ofConstraints hspace hcs h => (Conjunction.ofConstraints_spec hspace hcs h).1
  | .addConstraint hb hc h => (Conjunction.addConstraint_spec hb.wellFormed hc h).1
  | .rehome hb hspace h => (Conjunction.rehome_spec hb.wellFormed hspace h).1
  | .intersect ha hb h => (Conjunction.intersect_spec ha.wellFormed hb.wellFormed h).1
  | .projectOut hb h hp => ((Conjunction.projectOut_spec hb.wellFormed h).1 _ hp).1
  | .subtract ha hb h hp => ((Conjunction.subtract_spec ha.wellFormed hb.wellFormed h).1 _ hp).1
  | .removeRedundancies hb h => (Conjunction.removeRedundancies_wellFormed hb.wellFormed h).1
  | .piece hs hmem => (hs.wellFormed.pieces _ hmem).1

theorem IntegerSet.Built.wellFormed {s : IntegerSet} : s.Built → s.WellFormed
  | .univ hspace => .univ hspace
  | .empty hspace => .empty hspace
  | .ofConjunction hb => (IntegerSet.ofConjunction_spec hb.wellFormed).1
  | .ofPieces hspace hbs h =>
    (IntegerSet.ofPieces_spec hspace (fun b hb => (hbs b hb).wellFormed) h).1
  | .slab hspace hlo hhi h =>
    (IntegerSet.slab_spec (V := fun _ => True) hspace ⟨hlo, fun _ _ => trivial⟩
      ⟨hhi, fun _ _ => trivial⟩ trivial h).1
  | .addConstraint hs hc h => (IntegerSet.addConstraint_spec hs.wellFormed hc h).1
  | .withDim hs h => (IntegerSet.withDim_spec hs.wellFormed h).1
  | .union hs ht h => (IntegerSet.union_spec hs.wellFormed ht.wellFormed h).1
  | .intersect hs ht h => (IntegerSet.intersect_spec hs.wellFormed ht.wellFormed h).1
  | .projectOut hs h => (IntegerSet.projectOut_spec hs.wellFormed h).1
  | .projectOntoDims hs h => (IntegerSet.projectOut_spec hs.wellFormed h).1
  | .subtract hs ht h => (IntegerSet.subtract_spec hs.wellFormed ht.wellFormed h).1
  | .coalesce hs h => IntegerSet.coalesce_wellFormed hs.wellFormed h
  | .parse h => IntegerSet.parse_wellFormed h

end

end LoopAudit
