import LoopAudit.IntegerSet.Reader
import LoopAudit.Proofs.SetAlgebra

/-! Sets that were read from text are well formed: the reader builds its forms by exact arithmetic
alone. -/

namespace LoopAudit

open Fallible

namespace Reading

variable {α : Type} {P : α → Prop}

def Yields (P : α → Prop) (r : Reader α) : Prop := ∀ ts a rest, r ts = .ok (a, rest) → P a

def Keeps (P : α → Prop) (step : α → List Token → Except SyntaxError (Option (α × List Token))) :
    Prop :=
  ∀ a ts b rest, P a → step a ts = .ok (some (b, rest)) → P b

theorem Keeps.loop {step : α → List Token → Except SyntaxError (Option (α × List Token))}
    {a : α} (hstep : Keeps P step) (ha : P a) : Yields P (loop step a) := by
  intro ts
  suffices h : ∀ n a ts b rest, P a → iterate step n a ts = .ok (b, rest) → P b from
    fun b rest => h _ a ts b rest ha
  intro n
  induction n with
  | zero =>
    rintro a ts b rest ha ⟨⟩
    exact ha
  | succ n ih =>
    intro a ts b rest ha h
    obtain ⟨o, ho, h⟩ := bind_eq_ok.mp h
    split at h
    · cases h
      exact ha
    · exact ih _ _ _ _ (hstep _ _ _ _ ha ho) h

theorem listReader_yields {β : Type} {Q : β → Prop} {sep : TokenKind} {item : Reader β}
    {start : β → α} {push : α → β → α} (hitem : Yields Q item) (hstart : ∀ b, Q b → P (start b))
    (hpush : ∀ a b, P a → Q b → P (push a b)) : Yields P (listReader sep item start push) := by
  intro ts a rest h
  obtain ⟨⟨first, us⟩, hfirst, h⟩ := bind_eq_ok.mp h
  refine Keeps.loop ?_ (hstart first (hitem ts first us hfirst)) _ a rest h
  intro a ts b rest ha h
  unfold listStep at h
  split at h
  · cases h
  · obtain ⟨⟨next, us⟩, hnext, h⟩ := bind_eq_ok.mp h
    cases h
    exact hpush a next ha (hitem _ next _ hnext)

end Reading

namespace IntegerSet.Reader

open Reading

variable {space : Space} {inner : Reader Affine} {e f : Affine}

abbrev Plain (e : Affine) : Prop := e.Over fun _ => True

abbrev PlainAll (cs : List Constraint) : Prop := ∀ c ∈ cs, c.WellFormed fun _ => True

theorem located_eq_ok {α : Type} {span : Span} {r : Except SetError α} {a : α} :
    located span r = .ok a ↔ r = .ok a := by
  cases r <;> simp [located, Except.mapError]

theorem factor_yields (hinner : Yields Plain inner) : Yields Plain (factor space inner) := by
  intro ts
  induction ts with
  | nil => nofun
  | cons t ts ih =>
    intro e rest h
    unfold factor at h
    split at h
    · cases h
      exact .const _
    · split_ifs at h
      cases h
      exact .term trivial 1
    · next heq =>
      obtain ⟨-, rfl⟩ := List.cons.inj heq
      obtain ⟨⟨f, rest'⟩, hf, h⟩ := bind_eq_ok.mp h
      obtain ⟨g, hg, h⟩ := bind_eq_ok.mp h
      cases h
      exact (Affine.neg_spec (ih f _ hf) (located_eq_ok.mp hg)).1
    · obtain ⟨⟨f, rest'⟩, hf, h⟩ := bind_eq_ok.mp h
      obtain ⟨_, -, h⟩ := bind_eq_ok.mp h
      cases h
      exact hinner _ _ _ hf
    · cases h

theorem multiply_plain {span : Span} {g : Affine} (he : Plain e) (hf : Plain f)
    (h : multiply span e f = .ok g) : Plain g := by
  unfold multiply at h
  split_ifs at h
  · exact (Affine.scale_spec hf (located_eq_ok.mp h)).1
  · exact (Affine.scale_spec he (located_eq_ok.mp h)).1

theorem product_yields (hinner : Yields Plain inner) : Yields Plain (product space inner) := by
  intro ts e rest h
  obtain ⟨⟨f, rest'⟩, hf, h⟩ := bind_eq_ok.mp h
  refine Keeps.loop ?_ (factor_yields hinner ts f rest' hf) _ e rest h
  intro a ts b rest ha h
  unfold productStep at h
  split at h
  · cases h
  · obtain ⟨⟨g, us⟩, hg, h⟩ := bind_eq_ok.mp h
    obtain ⟨m, hm, h⟩ := bind_eq_ok.mp h
    cases h
    exact multiply_plain ha (factor_yields hinner _ g _ hg) hm

theorem sum_yields (hinner : Yields Plain inner) : Yields Plain (sum space inner) := by
  intro ts e rest h
  obtain ⟨⟨f, rest'⟩, hf, h⟩ := bind_eq_ok.mp h
  refine Keeps.loop ?_ (product_yields hinner ts f rest' hf) _ e rest h
  intro a ts b rest ha h
  unfold sumStep at h
  split at h
  · obtain ⟨⟨g, us⟩, hg, h⟩ := bind_eq_ok.mp h
    obtain ⟨m, hm, h⟩ := bind_eq_ok.mp h
    cases h
    exact (Affine.add_spec ha (product_yields hinner _ g _ hg) (located_eq_ok.mp hm)).1
  · obtain ⟨⟨g, us⟩, hg, h⟩ := bind_eq_ok.mp h
    obtain ⟨m, hm, h⟩ := bind_eq_ok.mp h
    cases h
    exact (Affine.sub_spec ha (product_yields hinner _ g _ hg) (located_eq_ok.mp hm)).1
  · cases h

theorem affine_yields : Yields Plain (affine space) := by
  suffices h : ∀ depth, Yields Plain (affineWithin space depth) from fun ts => h _ ts
  intro depth
  induction depth with
  | zero => exact fun ts e rest h => by cases h
  | succ depth ih => exact sum_yields ih

theorem comparison_wellFormed {kind : TokenKind}
    {compare : Affine → Affine → Except SetError Constraint} {c : Constraint}
    (hkind : comparison? kind = some compare) (he : Plain e) (hf : Plain f)
    (h : compare e f = .ok c) : c.WellFormed fun _ => True := by
  unfold comparison? at hkind
  split at hkind <;> cases hkind
  · exact (Constraint.lt_spec he hf h).1
  · exact (Constraint.le_spec he hf h).1
  · exact (Constraint.lt_spec hf he h).1
  · exact (Constraint.le_spec hf he h).1
  · exact (Constraint.equal_spec he hf h).1
  · exact (Constraint.equal_spec he hf h).1

theorem comparisons_yields (he : Plain e) : Yields PlainAll (comparisons space e) := by
  intro ts cs rest h
  obtain ⟨⟨⟨left, found⟩, rest'⟩, hloop, h⟩ := bind_eq_ok.mp h
  have hfound := Keeps.loop (P := fun p : Affine × List Constraint => Plain p.1 ∧ PlainAll p.2)
    ?_ (show Plain e ∧ PlainAll [] from ⟨he, nofun⟩) _ _ _ hloop
  · simp only at h
    split_ifs at h
    cases h
    exact hfound.2
  · rintro ⟨left, found⟩ ts ⟨right, found'⟩ rest ⟨hleft, hfound⟩ h
    unfold chainStep at h
    simp only at h
    split at h
    · split at h
      · cases h
      · next compare hcompare =>
        obtain ⟨⟨g, rest''⟩, hg, h⟩ := bind_eq_ok.mp h
        obtain ⟨c, hc, h⟩ := bind_eq_ok.mp h
        cases h
        have hg' : Plain g := affine_yields _ g rest'' hg
        refine ⟨hg', List.forall_mem_append.mpr ⟨hfound, List.forall_mem_singleton.mpr ?_⟩⟩
        exact comparison_wellFormed hcompare hleft hg' (located_eq_ok.mp hc)
    · cases h

theorem congruence_plain {m : Int} {cs : List Constraint} (he : Plain e) (hf : Plain f)
    (h : congruence e f m = .ok cs) : PlainAll cs := by
  simp only [congruence, bind_eq_ok] at h
  obtain ⟨g, hg, divides, hdivides, nonnegative, hnonneg, below, hbelow, h⟩ := h
  cases h
  have hg' : Plain g := (Affine.sub_spec he hf hg).1
  exact List.forall_mem_cons.mpr ⟨(Constraint.divisible_spec hg' hdivides).1,
    List.forall_mem_cons.mpr ⟨(Constraint.le_spec (.const 0) hf hnonneg).1,
      List.forall_mem_singleton.mpr (Constraint.lt_spec hf (.const m) hbelow).1⟩⟩

theorem congruenceTail_yields (he : Plain e) : Yields PlainAll (congruenceTail space e) := by
  intro ts cs rest h
  unfold congruenceTail at h
  split at h
  · split_ifs at h
    obtain ⟨_, -, h⟩ := bind_eq_ok.mp h
    obtain ⟨⟨f, rest'⟩, hf, h⟩ := bind_eq_ok.mp h
    obtain ⟨cs', hcs, h⟩ := bind_eq_ok.mp h
    cases h
    exact congruence_plain he (affine_yields _ _ _ hf) (located_eq_ok.mp hcs)
  · cases h

theorem chain_yields : Yields PlainAll (chain space) := by
  intro ts cs rest h
  obtain ⟨⟨e, rest'⟩, he, h⟩ := bind_eq_ok.mp h
  have he' : Plain e := affine_yields ts e rest' he
  simp only at h
  split at h
  · exact congruenceTail_yields he' _ cs rest h
  · exact congruenceTail_yields he' _ cs rest h
  · exact comparisons_yields he' _ cs rest h

abbrev PlainConjunction (o : Option (List Constraint)) : Prop := ∀ cs, o = some cs → PlainAll cs

theorem conjunct_yields : Yields PlainConjunction (conjunct space) := by
  intro ts o rest h
  unfold conjunct at h
  split at h
  · cases h
    nofun
  · cases h
    rintro cs ⟨⟩
    nofun
  · obtain ⟨⟨cs, rest'⟩, hcs, h⟩ := bind_eq_ok.mp h
    cases h
    rintro cs' ⟨⟩
    exact chain_yields _ _ _ hcs

theorem both_plain {o o' : Option (List Constraint)} (ho : PlainConjunction o)
    (ho' : PlainConjunction o') : PlainConjunction (both o o') := by
  intro cs hcs
  unfold both at hcs
  split at hcs
  · cases hcs
    exact List.forall_mem_append.mpr ⟨ho _ rfl, ho' _ rfl⟩
  · cases hcs

theorem conjunction_yields : Yields PlainConjunction (conjunction space) :=
  listReader_yields conjunct_yields (fun _ => id) fun _ _ => both_plain

theorem disjunction_yields : Yields (fun found => ∀ o ∈ found, PlainConjunction o)
    (disjunction space) :=
  listReader_yields (P := fun found => ∀ o ∈ found, PlainConjunction o) conjunction_yields
    (fun _ => List.forall_mem_singleton.mpr) fun _ _ ha hb =>
      List.forall_mem_append.mpr ⟨ha, List.forall_mem_singleton.mpr hb⟩

theorem ofConjunctions_wellFormed {found : List (Option (List Constraint))} {s : IntegerSet}
    (hspace : space.Distinct) (hfound : ∀ o ∈ found, PlainConjunction o)
    (h : ofConjunctions space found = .ok s) : s.WellFormed := by
  obtain ⟨bs, hbs, h⟩ := bind_eq_ok.mp h
  refine (ofPieces_spec hspace (fun b hb => ?_) h).1
  obtain ⟨cs, hcs, hb'⟩ := exists_of_mapM_mem hbs hb
  have hmem : some cs ∈ found := by simpa using hcs
  exact (Conjunction.ofConstraints_spec hspace (hfound _ hmem cs rfl) hb').1

theorem body_yields (hspace : space.Distinct) : Yields WellFormed (body space) := by
  intro ts s rest h
  unfold body at h
  split at h
  · cases h
    exact .univ hspace
  · obtain ⟨⟨found, rest'⟩, hfound, h⟩ := bind_eq_ok.mp h
    obtain ⟨s', hs', h⟩ := bind_eq_ok.mp h
    cases h
    exact ofConjunctions_wellFormed hspace (disjunction_yields _ _ _ hfound)
      (located_eq_ok.mp hs')

theorem set_yields : Yields WellFormed set := by
  intro ts s rest h
  simp only [set, bind_eq_ok] at h
  obtain ⟨_, -, _, -, _, -, space, hspace, ⟨s', rest'⟩, hbody, _, -, _, -, h⟩ := h
  cases h
  exact body_yields (Space.ofNames_eq_ok (located_eq_ok.mp hspace)).2 _ _ _ hbody

end IntegerSet.Reader

theorem IntegerSet.parse_wellFormed {src : String} {s : IntegerSet}
    (h : IntegerSet.parse src = .ok s) : s.WellFormed := by
  simp only [parse, bind_eq_ok] at h
  obtain ⟨_, -, ⟨s', rest⟩, hset, h⟩ := h
  cases h
  exact Reader.set_yields _ _ _ hset

end LoopAudit
