import LoopAudit.Proofs.Lexemes
import LoopAudit.Proofs.Recognition

/-! Sets that were read from text mean what the text says. Whatever a reader takes for a form, a
constraint or a conjunction is spelled by the tokens it used up, and the value that it builds agrees
with the spelling at every assignment. -/

namespace LoopAudit

open Fallible Formula

namespace IntegerSet.Reader

open Reading

variable {space : Space} {inner : Reader Affine} {e f g : Affine} {v w : (String → Int) → Int}

def Means (v : (String → Int) → Int) (e : Affine) : Prop := Plain e ∧ ∀ ρ, e.eval ρ = v ρ

section Forms

theorem Means.neg {span : Span} (he : Means v e) (h : located span e.neg = .ok g) :
    Means (fun ρ => -v ρ) g := by
  have ⟨hplain, heval⟩ := Affine.neg_spec he.1 (located_eq_ok.mp h)
  exact ⟨hplain, fun ρ => by rw [heval, he.2]⟩

theorem Means.add {span : Span} (he : Means v e) (hf : Means w f)
    (h : located span (e.add f) = .ok g) : Means (fun ρ => v ρ + w ρ) g := by
  have ⟨hplain, heval⟩ := Affine.add_spec he.1 hf.1 (located_eq_ok.mp h)
  exact ⟨hplain, fun ρ => by rw [heval, he.2, hf.2]⟩

theorem Means.sub {span : Span} (he : Means v e) (hf : Means w f)
    (h : located span (e.sub f) = .ok g) : Means (fun ρ => v ρ - w ρ) g := by
  have ⟨hplain, heval⟩ := Affine.sub_spec he.1 hf.1 (located_eq_ok.mp h)
  exact ⟨hplain, fun ρ => by rw [heval, he.2, hf.2]⟩

theorem Means.multiply {span : Span} (he : Means v e) (hf : Means w f)
    (h : multiply span e f = .ok g) : Means (fun ρ => v ρ * w ρ) g := by
  unfold Reader.multiply at h
  split_ifs at h with hconst hconst'
  · have ⟨hplain, heval⟩ := Affine.scale_spec hf.1 (located_eq_ok.mp h)
    exact ⟨hplain, fun ρ => by rw [heval, ← Affine.eval_of_isConstant hconst, he.2, hf.2]⟩
  · have ⟨hplain, heval⟩ := Affine.scale_spec he.1 (located_eq_ok.mp h)
    refine ⟨hplain, fun ρ => ?_⟩
    rw [heval, ← Affine.eval_of_isConstant hconst', he.2, hf.2, mul_comm]

theorem factor_recognizes
    (hinner : Recognizes inner Form.tokens fun t => Means fun ρ => t.value ρ) :
    Recognizes (factor space inner) Factor.tokens fun t => Means fun ρ => t.value ρ := by
  intro ts
  induction ts with
  | nil => nofun
  | cons t ts ih =>
    intro e rest h
    unfold factor at h
    split at h
    · next heq =>
      obtain ⟨rfl, rfl⟩ := List.cons.inj heq
      cases h
      exact ⟨.number _, rfl, .const _, fun ρ => rfl⟩
    · next heq =>
      obtain ⟨rfl, rfl⟩ := List.cons.inj heq
      split_ifs at h
      cases h
      refine ⟨.atom (.name _), rfl, .term trivial 1, fun ρ => ?_⟩
      rw [Affine.var, Affine.eval_term, one_mul]
      rfl
    · next heq =>
      obtain ⟨rfl, rfl⟩ := List.cons.inj heq
      have ⟨⟨f, rest'⟩, hf, hneg⟩ := bind_eq_ok.mp h
      have ⟨g, hg, hresult⟩ := bind_eq_ok.mp hneg
      cases hresult
      have ⟨t, ht, hmeans⟩ := ih f rest hf
      exact ⟨.neg t, by simp [ht, Factor.tokens], hmeans.neg hg⟩
    · next heq =>
      obtain ⟨rfl, rfl⟩ := List.cons.inj heq
      have ⟨⟨f, rest'⟩, hf, hgroup⟩ := bind_eq_ok.mp h
      have ⟨⟨span, rest''⟩, hclose, hresult⟩ := bind_eq_ok.mp hgroup
      cases hresult
      have ⟨t, ht, hmeans⟩ := hinner _ _ rest' hf
      rw [expect_eq_ok.mp hclose] at ht
      exact ⟨.atom (.group t), by simp [ht, Factor.tokens, Atom.tokens], hmeans⟩
    · cases h

theorem exists_atom {ts : List Token} {t : Factor} {kinds : List TokenKind}
    (h : ts.map Token.kind = t.tokens ++ kinds) (hstart : startsImplicitFactor ts = true) :
    ∃ a, t = .atom a := by
  rcases t with n | a | t
  · obtain ⟨⟨_, span⟩, us, rfl, rfl, -⟩ := List.map_eq_cons_iff.mp h
    cases hstart
  · exact ⟨a, rfl⟩
  · obtain ⟨⟨_, span⟩, us, rfl, rfl, -⟩ := List.map_eq_cons_iff.mp h
    cases hstart

theorem product_recognizes
    (hinner : Recognizes inner Form.tokens fun t => Means fun ρ => t.value ρ) :
    Recognizes (product space inner) Product.tokens fun t => Means fun ρ => t.value ρ := by
  intro ts e rest h
  have ⟨⟨f, us⟩, hf, hloop⟩ := bind_eq_ok.mp h
  have ⟨t, ht, hmeans⟩ := factor_recognizes hinner ts f us hf
  have htail : ∀ v, Means v f → ∃ fs : Factors,
      us.map Token.kind = fs.tokens ++ rest.map Token.kind ∧
        Means (fun ρ => fs.value ρ (v ρ)) e := by
    refine loop_induction (M := fun f us => ∀ v, Means v f → ∃ fs : Factors,
      us.map Token.kind = fs.tokens ++ rest.map Token.kind ∧ Means (fun ρ => fs.value ρ (v ρ)) e)
      (fun v hv => ⟨.done, rfl, hv⟩) ?_ hloop
    intro f us f' vs hstep ih v hv
    unfold productStep at hstep
    rcases hnext : nextFactor? f us with _ | ws
    · simp [hnext] at hstep
    · simp only [hnext] at hstep
      have ⟨⟨g, xs⟩, hg, hproduct⟩ := bind_eq_ok.mp hstep
      have ⟨m, hm, hresult⟩ := bind_eq_ok.mp hproduct
      obtain ⟨rfl, rfl⟩ : m = f' ∧ xs = vs := by simpa using hresult
      have ⟨u, hu, hmeansu⟩ := factor_recognizes hinner ws g xs hg
      have ⟨fs, hfs, hvalue⟩ := ih _ (hv.multiply hmeansu hm)
      unfold nextFactor? at hnext
      split_ifs at hnext with himplicit
      · cases hnext
        obtain ⟨a, rfl⟩ := exists_atom hu (Bool.and_eq_true_iff.mp himplicit).2
        refine ⟨.next a fs, ?_, hvalue⟩
        rw [hu, hfs, Factors.tokens, List.append_assoc]
        rfl
      · have ⟨⟨span, ws'⟩, heat, heq⟩ := Option.map_eq_some_iff.mp hnext
        obtain rfl : ws' = ws := heq
        refine ⟨.times u fs, ?_, hvalue⟩
        rw [eat?_eq_some.mp heat]
        simp [hu, hfs, Factors.tokens]
  have ⟨fs, hfs, hvalue⟩ := htail _ hmeans
  refine ⟨.mk t fs, ?_, hvalue⟩
  rw [ht, hfs, Product.tokens, List.append_assoc]

theorem sum_recognizes
    (hinner : Recognizes inner Form.tokens fun t => Means fun ρ => t.value ρ) :
    Recognizes (sum space inner) Form.tokens fun t => Means fun ρ => t.value ρ := by
  intro ts e rest h
  have ⟨⟨f, us⟩, hf, hloop⟩ := bind_eq_ok.mp h
  have ⟨t, ht, hmeans⟩ := product_recognizes hinner ts f us hf
  have htail : ∀ v, Means v f → ∃ terms : Terms,
      us.map Token.kind = terms.tokens ++ rest.map Token.kind ∧
        Means (fun ρ => terms.value ρ (v ρ)) e := by
    refine loop_induction (M := fun f us => ∀ v, Means v f → ∃ terms : Terms,
      us.map Token.kind = terms.tokens ++ rest.map Token.kind ∧
        Means (fun ρ => terms.value ρ (v ρ)) e) (fun v hv => ⟨.done, rfl, hv⟩) ?_ hloop
    intro f us f' vs hstep ih v hv
    unfold sumStep at hstep
    rcases hplus : eat? .plus us with _ | ⟨span, ws⟩
    · rcases hminus : eat? .minus us with _ | ⟨span, ws⟩
      · simp [hplus, hminus] at hstep
      · simp only [hplus, hminus] at hstep
        have ⟨⟨g, xs⟩, hg, hsum⟩ := bind_eq_ok.mp hstep
        have ⟨m, hm, hresult⟩ := bind_eq_ok.mp hsum
        obtain ⟨rfl, rfl⟩ : m = f' ∧ xs = vs := by simpa using hresult
        have ⟨p, hp, hmeansp⟩ := product_recognizes hinner ws g xs hg
        have ⟨terms, hterms, hvalue⟩ := ih _ (hv.sub hmeansp hm)
        refine ⟨.minus p terms, ?_, hvalue⟩
        rw [eat?_eq_some.mp hminus]
        simp [hp, hterms, Terms.tokens]
    · simp only [hplus] at hstep
      have ⟨⟨g, xs⟩, hg, hsum⟩ := bind_eq_ok.mp hstep
      have ⟨m, hm, hresult⟩ := bind_eq_ok.mp hsum
      obtain ⟨rfl, rfl⟩ : m = f' ∧ xs = vs := by simpa using hresult
      have ⟨p, hp, hmeansp⟩ := product_recognizes hinner ws g xs hg
      have ⟨terms, hterms, hvalue⟩ := ih _ (hv.add hmeansp hm)
      refine ⟨.plus p terms, ?_, hvalue⟩
      rw [eat?_eq_some.mp hplus]
      simp [hp, hterms, Terms.tokens]
  have ⟨terms, hterms, hvalue⟩ := htail _ hmeans
  refine ⟨.mk t terms, ?_, hvalue⟩
  rw [ht, hterms, Form.tokens, List.append_assoc]

theorem affine_recognizes :
    Recognizes (affine space) Form.tokens fun t => Means fun ρ => t.value ρ := by
  suffices h : ∀ depth, Recognizes (affineWithin space depth) Form.tokens
    fun t => Means fun ρ => t.value ρ from fun ts => h _ ts
  intro depth
  induction depth with
  | zero => exact fun ts e rest h => by cases h
  | succ depth ih => exact sum_recognizes ih

end Forms

section Constraints

variable {cs ds : List Constraint} {P Q : (String → Int) → Prop}

def Asserts (P : (String → Int) → Prop) (cs : List Constraint) : Prop :=
  PlainAll cs ∧ ∀ ρ, (∀ c ∈ cs, c.Holds ρ) ↔ P ρ

theorem Asserts.append (hcs : Asserts P cs) (hds : Asserts Q ds) :
    Asserts (fun ρ => P ρ ∧ Q ρ) (cs ++ ds) := by
  refine ⟨List.forall_mem_append.mpr ⟨hcs.1, hds.1⟩, fun ρ => ?_⟩
  rw [List.forall_mem_append, hcs.2, hds.2]

theorem comparison_asserts {kind : TokenKind} {span : Span}
    {compare : Affine → Affine → Except SetError Constraint} {c : Constraint}
    (hkind : comparison? kind = some compare) (he : Means v e) (hf : Means w f)
    (h : located span (compare e f) = .ok c) :
    ∃ sign : Comparison, kind = sign.token ∧ Asserts (fun ρ => sign.Holds (v ρ) (w ρ)) [c] := by
  have hc := located_eq_ok.mp h
  have hassert {P : (String → Int) → Prop}
      (hspec : c.WellFormed (fun _ => True) ∧ ∀ ρ, c.Holds ρ ↔ P ρ) : Asserts P [c] := by
    refine ⟨List.forall_mem_singleton.mpr hspec.1, fun ρ => ?_⟩
    rw [List.forall_mem_singleton, hspec.2]
  have hv : v = e.eval := funext fun ρ => (he.2 ρ).symm
  have hw : w = f.eval := funext fun ρ => (hf.2 ρ).symm
  subst hv hw
  unfold comparison? at hkind
  split at hkind <;> cases hkind
  · exact ⟨.lt, rfl, hassert (Constraint.lt_spec he.1 hf.1 hc)⟩
  · exact ⟨.le, rfl, hassert (Constraint.le_spec he.1 hf.1 hc)⟩
  · exact ⟨.gt, rfl, hassert (Constraint.lt_spec hf.1 he.1 hc)⟩
  · exact ⟨.ge, rfl, hassert (Constraint.le_spec hf.1 he.1 hc)⟩
  · exact ⟨.equal .single, rfl, hassert (Constraint.equal_spec he.1 hf.1 hc)⟩
  · exact ⟨.equal .double, rfl, hassert (Constraint.equal_spec he.1 hf.1 hc)⟩

/-- The links that a loop over comparisons has read when it ends with `found`. -/
def Chained (found : List Constraint) (rest : List Token) (p : Affine × List Constraint)
    (ts : List Token) : Prop :=
  ∀ v P, Means v p.1 → Asserts P p.2 → ∃ links : List Link,
    ts.map Token.kind = links.flatMap Link.tokens ++ rest.map Token.kind ∧
      found.length = p.2.length + links.length ∧
        Asserts (fun ρ => P ρ ∧ LinksHold ρ (v ρ) links) found

theorem comparisons_recognizes (he : Means v e) :
    Recognizes (comparisons space e) (fun p : Link × List Link => (p.1 :: p.2).flatMap Link.tokens)
      fun p => Asserts fun ρ => LinksHold ρ (v ρ) (p.1 :: p.2) := by
  intro ts cs rest h
  obtain ⟨⟨⟨left, found⟩, us⟩, hloop, hresult⟩ := bind_eq_ok.mp h
  have hchain : Chained found us (e, []) ts := by
    refine loop_induction (M := Chained found us) (fun v P _ hP => ⟨[], rfl, rfl, ?_⟩) ?_ hloop
    · simpa [LinksHold] using hP
    · rintro ⟨left, cs⟩ ts ⟨right, cs'⟩ vs hstep ih v P hv hP
      unfold chainStep at hstep
      rcases ts with _ | ⟨⟨kind, span⟩, ts⟩
      · cases hstep
      · rcases hkind : comparison? kind with _ | compare
        · simp [hkind] at hstep
        · simp only [hkind] at hstep
          obtain ⟨⟨right', ws⟩, hright, hcompare⟩ := bind_eq_ok.mp hstep
          obtain ⟨c, hc, hnext⟩ := bind_eq_ok.mp hcompare
          obtain ⟨⟨rfl, rfl⟩, rfl⟩ : (right' = right ∧ cs ++ [c] = cs') ∧ ws = vs := by
            simpa using hnext
          obtain ⟨t, ht, hmeans⟩ := affine_recognizes ts right' ws hright
          obtain ⟨sign, hsign, hone⟩ := comparison_asserts hkind hv hmeans hc
          obtain ⟨links, hlinks, hlength, hall⟩ := ih _ _ hmeans (hP.append hone)
          refine ⟨⟨sign, t⟩ :: links, ?_, ?_, hall.1, fun ρ => ?_⟩
          · simp [ht, hlinks, Link.tokens, hsign]
          · simp only [List.length_append, List.length_cons, List.length_nil] at hlength ⊢
            omega
          · exact (hall.2 ρ).trans and_assoc
  obtain ⟨links, hlinks, hlength, hall⟩ := hchain v (fun _ => True) he ⟨by simp [PlainAll], by simp⟩
  dsimp only at hresult
  split_ifs at hresult with hempty
  cases hresult
  rcases links with _ | ⟨link, links⟩
  · exact absurd (List.isEmpty_iff.mpr (List.length_eq_zero_iff.mp hlength)) hempty
  · refine ⟨(link, links), hlinks, hall.1, fun ρ => ?_⟩
    exact (hall.2 ρ).trans (iff_of_eq (true_and _))

theorem congruence_asserts {m : Int} {span : Span} (hm : 0 < m) (he : Means v e) (hf : Means w f)
    (h : located span (congruence e f m) = .ok cs) : Asserts (fun ρ => v ρ % m = w ρ) cs := by
  have hplain := congruence_plain he.1 hf.1 (located_eq_ok.mp h)
  have hcongruence := located_eq_ok.mp h
  simp only [congruence, bind_eq_ok] at hcongruence
  obtain ⟨g, hg, divides, hdivides, nonnegative, hnonneg, below, hbelow, hcs⟩ := hcongruence
  cases hcs
  refine ⟨hplain, fun ρ => ?_⟩
  have hsub := Affine.sub_spec he.1 hf.1 hg
  have hdvd : divides.Holds ρ ↔ m ∣ v ρ - w ρ := by
    rw [(Constraint.divisible_spec hsub.1 hdivides).2, hsub.2, he.2, hf.2]
  have hle : nonnegative.Holds ρ ↔ 0 ≤ w ρ := by
    rw [(Constraint.le_spec (.const 0) hf.1 hnonneg).2, Affine.eval_const, hf.2]
  have hlt : below.Holds ρ ↔ w ρ < m := by
    rw [(Constraint.lt_spec hf.1 (.const m) hbelow).2, Affine.eval_const, hf.2]
  rw [List.forall_mem_cons, List.forall_mem_cons, List.forall_mem_singleton, hdvd, hle, hlt]
  constructor
  · rintro ⟨hdvd, hle, hlt⟩
    rw [Int.emod_eq_emod_iff_emod_sub_eq_zero.mpr (Int.emod_eq_zero_of_dvd hdvd)]
    exact Int.emod_eq_of_lt hle hlt
  · rintro heq
    rw [← heq]
    exact ⟨Int.dvd_self_sub_of_emod_eq rfl, Int.emod_nonneg _ hm.ne', Int.emod_lt_of_pos _ hm⟩

theorem equalsSign_eq_ok {ts rest : List Token} {span : Span}
    (h : equalsSign ts = .ok (span, rest)) : ∃ q : Equals, ts = ⟨q.token, span⟩ :: rest := by
  unfold equalsSign at h
  rcases hsingle : eat? .eq ts with _ | found
  · rcases hdouble : eat? .eqEq ts with _ | found
    · simp [hsingle, hdouble] at h
    · simp only [hsingle, hdouble] at h
      cases h
      exact ⟨.double, eat?_eq_some.mp hdouble⟩
  · simp only [hsingle] at h
    cases h
    exact ⟨.single, eat?_eq_some.mp hsingle⟩

theorem congruenceTail_recognizes (he : Means v e) :
    Recognizes (congruenceTail space e)
      (fun p : Int × Equals × Form => .int p.1 :: p.2.1.token :: p.2.2.tokens)
      fun p => Asserts fun ρ => v ρ % p.1 = p.2.2.value ρ := by
  intro ts cs rest h
  unfold congruenceTail at h
  split at h
  · next m span us =>
    split_ifs at h with hm
    have ⟨⟨span', vs⟩, hsign, hform⟩ := bind_eq_ok.mp h
    have ⟨⟨f, ws⟩, hf, hcongruence⟩ := bind_eq_ok.mp hform
    have ⟨cs', hcs, hresult⟩ := bind_eq_ok.mp hcongruence
    cases hresult
    obtain ⟨q, rfl⟩ := equalsSign_eq_ok hsign
    have ⟨t, ht, hmeans⟩ := affine_recognizes vs f rest hf
    refine ⟨(m, q, t), by simp [ht], ?_⟩
    exact congruence_asserts hm he hmeans hcs
  · cases h

theorem chain_recognizes :
    Recognizes (chain space) Conjunct.tokens fun c => Asserts fun ρ => c.Holds ρ := by
  intro ts cs rest h
  obtain ⟨⟨e, us⟩, he, htail⟩ := bind_eq_ok.mp h
  obtain ⟨t, ht, hmeans⟩ := affine_recognizes ts e us he
  dsimp only at htail
  rcases hword : eat? .kwMod us with _ | ⟨span, vs⟩
  · rcases hpercent : eat? .percent us with _ | ⟨span, vs⟩
    · simp only [hword, hpercent] at htail
      obtain ⟨⟨l, ls⟩, hls, hasserts⟩ := comparisons_recognizes hmeans us cs rest htail
      refine ⟨.chain t l ls, ?_, hasserts⟩
      rw [ht, hls, Conjunct.tokens, List.append_assoc]
    · simp only [hword, hpercent] at htail
      obtain ⟨⟨m, q, f⟩, hf, hasserts⟩ := congruenceTail_recognizes hmeans vs cs rest htail
      refine ⟨.congruence t .percent m q f, ?_, hasserts⟩
      rw [ht, eat?_eq_some.mp hpercent]
      simp [hf, Conjunct.tokens, Modulo.token]
  · simp only [hword] at htail
    obtain ⟨⟨m, q, f⟩, hf, hasserts⟩ := congruenceTail_recognizes hmeans vs cs rest htail
    refine ⟨.congruence t .word m q f, ?_, hasserts⟩
    rw [ht, eat?_eq_some.mp hword]
    simp [hf, Conjunct.tokens, Modulo.token]

end Constraints

section Conjunctions

variable {o o' : Option (List Constraint)} {P Q : (String → Int) → Prop}

def Says (P : (String → Int) → Prop) (o : Option (List Constraint)) : Prop :=
  PlainConjunction o ∧ ∀ ρ, (∃ cs, o = some cs ∧ ∀ c ∈ cs, c.Holds ρ) ↔ P ρ

theorem Asserts.whole {cs : List Constraint} (h : Asserts P cs) : Says P (some cs) := by
  refine ⟨?_, fun ρ => ?_⟩
  · rintro _ ⟨⟩
    exact h.1
  · simp [h.2]

theorem Says.both (ho : Says P o) (ho' : Says Q o') : Says (fun ρ => P ρ ∧ Q ρ) (both o o') := by
  refine ⟨both_plain ho.1 ho'.1, fun ρ => ?_⟩
  show _ ↔ P ρ ∧ Q ρ
  rw [← ho.2, ← ho'.2]
  rcases o with _ | cs <;> rcases o' with _ | ds <;> simp [Reader.both, or_imp, forall_and]

theorem Says.foldl {cs : List Conjunct} {os : List (Option (List Constraint))}
    (hall : List.Forall₂ (fun c => Says fun ρ => c.Holds ρ) cs os) (ho : Says P o) :
    Says (fun ρ => P ρ ∧ ∀ c ∈ cs, c.Holds ρ) (os.foldl Reader.both o) := by
  induction hall generalizing o P with
  | nil => simpa using ho
  | cons hc _ ih => simpa [and_assoc] using ih (ho.both hc)

theorem conjunct_recognizes :
    Recognizes (conjunct space) Conjunct.tokens fun c => Says fun ρ => c.Holds ρ := by
  intro ts o rest h
  unfold conjunct at h
  rcases hfalse : eat? .kwFalse ts with _ | ⟨span, us⟩
  · rcases htrue : eat? .kwTrue ts with _ | ⟨span, us⟩
    · simp only [hfalse, htrue] at h
      have ⟨⟨cs, us⟩, hcs, hresult⟩ := bind_eq_ok.mp h
      obtain ⟨rfl, rfl⟩ : some cs = o ∧ us = rest := by simpa using hresult
      have ⟨c, hc, hasserts⟩ := chain_recognizes ts cs us hcs
      exact ⟨c, hc, hasserts.whole⟩
    · simp only [hfalse, htrue] at h
      cases h
      refine ⟨.always, by rw [eat?_eq_some.mp htrue]; rfl, ?_⟩
      exact Asserts.whole (P := fun _ => True) ⟨nofun, by simp⟩
  · simp only [hfalse] at h
    cases h
    refine ⟨.never, by rw [eat?_eq_some.mp hfalse]; rfl, nofun, fun ρ => ?_⟩
    simp [Conjunct.Holds]

theorem conjunction_recognizes :
    Recognizes (conjunction space) (Series.tokens .kwAnd Conjunct.tokens)
      fun s => Says fun ρ => ∀ c ∈ s.toList, c.Holds ρ := by
  intro ts o rest h
  have ⟨s, first, os, hfirst, hrest, ho, hts⟩ := listReader_recognizes conjunct_recognizes h
  refine ⟨s, hts, ?_⟩
  rw [ho]
  simpa [Series.toList] using Says.foldl hrest hfirst

theorem disjunction_recognizes :
    Recognizes (disjunction space) disjunctionTokens fun body =>
      List.Forall₂ (fun s => Says fun ρ => ∀ c ∈ s.toList, c.Holds ρ) body.toList := by
  intro ts found rest h
  have ⟨body, hall, hts⟩ := collect_recognizes conjunction_recognizes h
  exact ⟨body, hts, hall⟩

theorem exists_says_iff {ss : List (Series Conjunct)} {found : List (Option (List Constraint))}
    (h : List.Forall₂ (fun s => Says fun ρ => ∀ c ∈ s.toList, c.Holds ρ) ss found)
    (ρ : String → Int) : (∃ o ∈ found, ∃ cs, o = some cs ∧ ∀ c ∈ cs, c.Holds ρ) ↔
      ∃ s ∈ ss, ∀ c ∈ s.toList, c.Holds ρ := by
  induction h with
  | nil => simp
  | cons hs _ ih => rw [List.exists_mem_cons_iff, List.exists_mem_cons_iff, hs.2, ih]

theorem ofConjunctions_spec {found : List (Option (List Constraint))} {s : IntegerSet}
    (hspace : space.Distinct) (hfound : ∀ o ∈ found, PlainConjunction o)
    (h : ofConjunctions space found = .ok s) : s.space = space ∧
      ∀ ρ, s.Mem ρ ↔ ∃ o ∈ found, ∃ cs, o = some cs ∧ ∀ c ∈ cs, c.Holds ρ := by
  have ⟨bs, hbs, hpieces⟩ := bind_eq_ok.mp h
  have hmem {cs : List Constraint} : cs ∈ found.filterMap id ↔ some cs ∈ found := by simp
  have hpiece {cs : List Constraint} {b : Conjunction} (hcs : some cs ∈ found)
      (hb : Conjunction.ofConstraints space cs = .ok b) :=
    Conjunction.ofConstraints_spec hspace (hfound _ hcs cs rfl) hb
  have hspec := ofPieces_spec hspace (fun b hb => by
    have ⟨cs, hcs, hb'⟩ := exists_of_mapM_mem hbs hb
    exact (hpiece (hmem.mp hcs) hb').1) hpieces
  refine ⟨hspec.2.1, fun ρ => (hspec.2.2 ρ).trans ⟨?_, ?_⟩⟩
  · rintro ⟨b, hb, hholds⟩
    have ⟨cs, hcs, hb'⟩ := exists_of_mapM_mem hbs hb
    exact ⟨some cs, hmem.mp hcs, cs, rfl, ((hpiece (hmem.mp hcs) hb').2.2 ρ).mp hholds⟩
  · rintro ⟨_, ho, cs, rfl, hholds⟩
    have ⟨b, hb, hb'⟩ := exists_mapM_mem hbs (hmem.mpr ho)
    exact ⟨b, hb, ((hpiece ho hb').2.2 ρ).mpr hholds⟩

end Conjunctions

section Sets

variable {ts rest : List Token}

theorem names_recognizes {names : List String}
    (h : collect .comma expectName ts = .ok (names, rest)) : ts.map Token.kind =
      Token.joined .comma (names.map fun x => [.ident x]) ++ rest.map Token.kind := by
  have hname : Recognizes expectName (fun x => [TokenKind.ident x]) Eq := by
    intro ts x rest h
    unfold expectName at h
    split at h
    · cases h
      exact ⟨x, rfl, rfl⟩
    · cases h
  have ⟨s, hall, hts⟩ := collect_recognizes hname h
  have hnames : s.toList = names := List.forall₂_eq_eq_eq ▸ hall
  rw [hts, ← hnames]
  simp [Series.tokens, Series.toList, Token.joined, List.flatMap_map]

theorem nameList_recognizes {names : List String} {span : Span}
    (h : nameList ts = .ok ((names, span), rest)) :
    ts.map Token.kind = nameTokens names ++ rest.map Token.kind := by
  have ⟨⟨opening, us⟩, hopening, hnames⟩ := bind_eq_ok.mp h
  rw [expect_eq_ok.mp hopening]
  dsimp only at hnames
  split_ifs at hnames with hempty
  · have ⟨⟨closing, vs⟩, hclosing, hresult⟩ := bind_eq_ok.mp (show
      (expect .rbracket "']'" us >>= fun p => .ok (([], p.1), p.2)) = .ok ((names, span), rest)
      from hnames)
    obtain ⟨⟨rfl, rfl⟩, rfl⟩ : ([] = names ∧ closing = span) ∧ vs = rest := by simpa using hresult
    rw [expect_eq_ok.mp hclosing]
    rfl
  · have ⟨⟨names', vs⟩, hnames', htail⟩ := bind_eq_ok.mp hnames
    have ⟨⟨closing, ws⟩, hclosing, hresult⟩ := bind_eq_ok.mp htail
    obtain ⟨⟨rfl, rfl⟩, rfl⟩ : (names' = names ∧ closing = span) ∧ ws = rest := by
      simpa using hresult
    have hvs : vs = ⟨.rbracket, closing⟩ :: ws := expect_eq_ok.mp hclosing
    rw [List.map_cons, names_recognizes hnames', hvs]
    simp [nameTokens]

theorem parameters_recognizes {params : List String} (h : parameters ts = .ok (params, rest)) :
    ∃ o : Option (List String), o.getD [] = params ∧ ts.map Token.kind =
      o.elim [] (fun names => nameTokens names ++ [.arrow]) ++ rest.map Token.kind := by
  unfold parameters at h
  split_ifs at h
  · have ⟨⟨⟨names, span⟩, us⟩, hnames, htail⟩ := bind_eq_ok.mp h
    have ⟨⟨span', vs⟩, harrow, hresult⟩ := bind_eq_ok.mp htail
    obtain ⟨rfl, rfl⟩ : names = params ∧ vs = rest := by simpa using hresult
    refine ⟨some names, rfl, ?_⟩
    rw [nameList_recognizes hnames, expect_eq_ok.mp harrow]
    simp
  · cases h
    exact ⟨none, rfl, rfl⟩

theorem dimensions_recognizes {opening span : Span} {dims : List String}
    (h : dimensions opening ts = .ok ((dims, span), rest)) :
    ∃ o : Option (List String), o.getD [] = dims ∧
      ts.map Token.kind = o.elim [] nameTokens ++ rest.map Token.kind := by
  unfold dimensions at h
  split_ifs at h
  · exact ⟨some dims, rfl, nameList_recognizes h⟩
  · cases h
    exact ⟨none, rfl, rfl⟩

theorem body_recognizes (hspace : space.Distinct) :
    Recognizes (body space)
      (fun o : Option (Series (Series Conjunct)) =>
        o.elim [] fun b => .colon :: disjunctionTokens b)
      fun o s => s.space = space ∧ ∀ ρ, s.Mem ρ ↔
        ∀ b ∈ o, ∃ conjuncts ∈ b.toList, ∀ c ∈ conjuncts.toList, c.Holds ρ := by
  intro ts s rest h
  unfold body at h
  rcases hcolon : eat? .colon ts with _ | ⟨span, us⟩
  · simp only [hcolon] at h
    cases h
    exact ⟨none, rfl, rfl, fun ρ => iff_of_true mem_univ nofun⟩
  · simp only [hcolon] at h
    have ⟨⟨found, vs⟩, hfound, htail⟩ := bind_eq_ok.mp h
    have ⟨s', hs', hresult⟩ := bind_eq_ok.mp htail
    obtain ⟨rfl, rfl⟩ : s' = s ∧ vs = rest := by simpa using hresult
    have ⟨b, hb, hall⟩ := disjunction_recognizes us found vs hfound
    have ⟨hspace', hmem⟩ := ofConjunctions_spec hspace
      (disjunction_yields us found vs hfound) (located_eq_ok.mp hs')
    refine ⟨some b, ?_, hspace', fun ρ => ?_⟩
    · rw [eat?_eq_some.mp hcolon]
      simp [hb]
    · rw [hmem, exists_says_iff hall]
      simp

theorem set_recognizes {s : IntegerSet} (h : set ts = .ok (s, rest)) :
    ∃ (d : Description) (kinds : List TokenKind), ts.map Token.kind = d.tokens ++ .eof :: kinds ∧
      s.space = d.space ∧ ∀ ρ, s.Mem ρ ↔ d.Holds ρ := by
  simp only [set, bind_eq_ok] at h
  obtain ⟨⟨params, us⟩, hparams, ⟨opening, vs⟩, hopening, ⟨⟨dims, last⟩, ws⟩, hdims, space, hspace,
    ⟨s', xs⟩, hbody, ⟨closing, ys⟩, hclosing, _, hend, hresult⟩ := h
  obtain ⟨rfl, rfl⟩ : s' = s ∧ ys = rest := by simpa using hresult
  obtain ⟨hspace', hdistinct⟩ := Space.ofNames_eq_ok (located_eq_ok.mp hspace)
  obtain ⟨o, ho, hts⟩ := parameters_recognizes hparams
  have hus : us = ⟨.lbrace, opening⟩ :: vs := expect_eq_ok.mp hopening
  obtain ⟨o', ho', hvs⟩ := dimensions_recognizes hdims
  obtain ⟨b, hws, hs, hmem⟩ := body_recognizes hdistinct ws s' xs hbody
  have hxs : xs = ⟨.rbrace, closing⟩ :: ys := expect_eq_ok.mp hclosing
  have hys : nextIs .eof ys = true := by
    unfold expectEnd at hend
    split_ifs at hend with hnext
    exact hnext
  obtain ⟨span, zs, hzs⟩ := nextIs_iff.mp hys
  refine ⟨⟨o, o', b⟩, zs.map Token.kind, ?_, ?_, hmem⟩
  · rw [hts, hus, List.map_cons, hvs, hws, hxs, hzs]
    simp [Description.tokens]
  · rw [hs, hspace', Description.space, ho, ho']

end Sets

end IntegerSet.Reader

def Formula.Description.Spells (d : Description) (src : String) : Prop :=
  Token.Segments src.toList d.tokens

/-- A text that is accepted spells exactly one description, and the set has the points of which the
description is true. -/
theorem IntegerSet.parse_meaning {src : String} {s : IntegerSet} (h : parse src = .ok s) :
    ∃ d : Description, d.Spells src ∧ (∀ d' : Description, d'.Spells src → d' = d) ∧
      s.space = d.space ∧ ∀ ρ, s.Mem ρ ↔ d.Holds ρ := by
  have ⟨ts, hts, hset⟩ := bind_eq_ok.mp h
  have ⟨⟨s', rest⟩, hset', hresult⟩ := bind_eq_ok.mp hset
  obtain rfl : s' = s := by simpa using hresult
  have ⟨kinds, hkinds, hsegments, _⟩ := Token.scanFrom_segments hts
  have ⟨d, kinds', hd, hspace, hmem⟩ := Reader.set_recognizes hset'
  have hspells : d.tokens = kinds := by
    have hsame : d.tokens ++ .eof :: kinds' = kinds ++ .eof :: [] := hd.symm.trans hkinds
    rcases List.append_eq_append_iff.mp hsame with ⟨ks, hks, htail⟩ | ⟨ks, hks, htail⟩
    · rcases ks with _ | ⟨k, ks⟩
      · rw [hks, List.append_nil]
      · have hk := (List.cons.inj htail).1
        have hmem : .eof ∈ kinds := by simp [hks, ← hk]
        exact absurd hmem hsegments.eof_not_mem
    · rcases ks with _ | ⟨k, ks⟩
      · rw [hks, List.append_nil]
      · simp at htail
  refine ⟨d, ?_, fun d' hd' => ?_, hspace, hmem⟩
  · rw [Description.Spells, hspells]
    exact hsegments
  · exact Description.tokens_inj ((hd'.unique hsegments).trans hspells.symm)

section Example

def slopeText : String :=
  "[n] -> \x7b [i, j] : 0 <= i < n && (j - j + 2)(i - 1)*3 <= j or -2j - i mod 4 = 1 \x7d"

def slope : IntegerSet :=
  let space : Space := ⟨["n"], ["i", "j"]⟩
  ⟨space, [⟨space, [.ge ⟨[("i", 1)], 0⟩, .ge ⟨[("i", -1), ("n", 1)], -1⟩,
    .ge ⟨[("i", -6), ("j", 1)], 6⟩], false⟩, ⟨space, [⟨.mod 4, ⟨[("i", 3), ("j", 2)], 3⟩⟩], false⟩]⟩

def slopeDescription : Description :=
  let name (x : String) : Product := .mk (.atom (.name x)) .done
  let number (n : Int) : Product := .mk (.number n) .done
  let alone (p : Product) : Form := .mk p .done
  let two : Form := .mk (name "j") (.minus (name "j") (.plus (number 2) .done))
  let previous : Form := .mk (name "i") (.minus (number 1) .done)
  let strip : Conjunct :=
    .chain (alone (number 0)) ⟨.le, alone (name "i")⟩ [⟨.lt, alone (name "n")⟩]
  let half : Conjunct :=
    .chain (alone (.mk (.atom (.group two)) (.next (.group previous) (.times (.number 3) .done))))
      ⟨.le, alone (name "j")⟩ []
  let residue : Conjunct :=
    .congruence (.mk (.mk (.neg (.number 2)) (.next (.name "j") .done)) (.minus (name "i") .done))
      .word 4 .single (alone (number 1))
  ⟨some ["n"], some ["i", "j"], some ⟨⟨strip, [half]⟩, [⟨residue, []⟩]⟩⟩

theorem slope_spells : slopeDescription.Spells slopeText := by
  have hscan : (Token.scan slopeText).toOption.map (·.map Token.kind) =
      some (slopeDescription.tokens ++ [.eof]) := by decide +kernel
  rcases hts : Token.scan slopeText with fault | ts
  · rw [hts] at hscan
    cases hscan
  · have ⟨kinds, hkinds, hsegments, _⟩ := Token.scanFrom_segments hts
    rw [hts] at hscan
    have hsame : kinds = slopeDescription.tokens :=
      List.append_cancel_right (hkinds.symm.trans (Option.some.inj hscan))
    rwa [Description.Spells, ← hsame]

theorem slope_meaning : IntegerSet.parse slopeText = .ok slope ∧ ∀ ρ : String → Int, slope.Mem ρ ↔
    (0 ≤ ρ "i" ∧ ρ "i" < ρ "n") ∧ (ρ "j" - ρ "j" + 2) * (ρ "i" - 1) * 3 ≤ ρ "j" ∨
      (-2 * ρ "j" - ρ "i") % 4 = 1 := by
  have hoption : (IntegerSet.parse slopeText).toOption = some slope := by decide +kernel
  have hparse : IntegerSet.parse slopeText = .ok slope := by
    rcases hresult : IntegerSet.parse slopeText with fault | s
    · rw [hresult] at hoption
      cases hoption
    · rw [hresult] at hoption
      rw [Option.some.inj hoption]
  have ⟨d, _, hunique, _, hmem⟩ := IntegerSet.parse_meaning hparse
  refine ⟨hparse, fun ρ => ?_⟩
  rw [hmem, ← hunique slopeDescription slope_spells]
  simp [slopeDescription, Description.Holds, Series.toList, Conjunct.Holds, LinksHold,
    Comparison.Holds, Form.value, Terms.value, Product.value, Factors.value, Factor.value,
    Atom.value]

end Example

end LoopAudit
