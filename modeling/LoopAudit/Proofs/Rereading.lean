import LoopAudit.Proofs.Reader
import LoopAudit.Proofs.Written

/-! What the readers make of written tokens. A reader is followed through the tokens of a form, a
constraint or a conjunction, up to a token that can only come after it. -/

namespace LoopAudit

namespace Reading

variable {α ι : Type} {kind sep : TokenKind} {kinds after : List TokenKind} {ts rest : List Token}
  {t : Token} {step : α → List Token → Except SyntaxError (Option (α × List Token))} {a b c : α}

theorem eq_singleton_of_kinds (h : ts.map Token.kind = [kind]) : ∃ span, ts = [⟨kind, span⟩] := by
  obtain ⟨⟨_, span⟩, us, rfl, rfl, hus⟩ := List.map_eq_cons_iff.mp h
  exact ⟨span, by rw [List.map_eq_nil_iff.mp hus]⟩

def Follows (after : List TokenKind) (rest : List Token) : Prop :=
  ∃ t ts, rest = t :: ts ∧ t.kind ∈ after

/-- The reader takes tokens of these kinds for a value, in front of one of the kinds `after`. -/
def Reads (r : Reader α) (kinds after : List TokenKind) (a : α) : Prop :=
  ∀ ts rest, ts.map Token.kind = kinds → Follows after rest → r (ts ++ rest) = .ok (a, rest)

theorem Follows.mono {later : List TokenKind} (h : Follows after rest) (hsub : after ⊆ later) :
    Follows later rest := by
  obtain ⟨t, ts, rfl, ht⟩ := h
  exact ⟨t, ts, rfl, hsub ht⟩

theorem Follows.eat?_eq_none (h : Follows after rest) (hkind : kind ∉ after) :
    eat? kind rest = none := by
  obtain ⟨t, ts, rfl, ht⟩ := h
  exact if_neg fun heq : t.kind = kind => hkind (heq ▸ ht)

theorem Follows.nextIs_eq_false (h : Follows after rest) (hkind : kind ∉ after) :
    nextIs kind rest = false := by
  obtain ⟨t, ts, rfl, ht⟩ := h
  exact beq_eq_false_iff_ne.mpr fun heq => hkind (heq ▸ ht)

theorem eat?_cons : eat? t.kind (t :: ts) = some (t.span, ts) := if_pos rfl

theorem expect_cons {what : String} {span : Span} :
    expect kind what (⟨kind, span⟩ :: ts) = .ok (span, ts) := by
  simp [expect, eat?]

inductive Steps (step : α → List Token → Except SyntaxError (Option (α × List Token))) :
    α → List Token → α → List Token → Prop
  | refl {a : α} {ts : List Token} : Steps step a ts a ts
  | head {a b c : α} {ts us rest : List Token} : step a ts = .ok (some (b, us)) →
      us.length < ts.length → Steps step b us c rest → Steps step a ts c rest

theorem Steps.trans {us : List Token} (h : Steps step a ts b us) (h' : Steps step b us c rest) :
    Steps step a ts c rest := by
  induction h with
  | refl => exact h'
  | head hstep hlt _ ih => exact .head hstep hlt (ih h')

theorem Steps.loop (h : Steps step a ts b rest) (hstop : step b rest = .ok none) :
    loop step a ts = .ok (b, rest) := by
  suffices hiterate : ∀ n, ts.length ≤ n → iterate step n a ts = .ok (b, rest) from
    hiterate ts.length le_rfl
  induction h with
  | refl =>
    rintro (_ | n) -
    · rfl
    · rw [iterate, hstop]
      rfl
  | head hstep hlt _ ih =>
    rintro (_ | n) hn
    · omega
    · rw [iterate, hstep]
      exact ih hstop n (by omega)

theorem Follows.items {items : List ι} {itemKinds : ι → List TokenKind} (h : Follows after rest)
    (hts : ts.map Token.kind = items.flatMap fun i => sep :: itemKinds i) :
    Follows (sep :: after) (ts ++ rest) := by
  cases items with
  | nil =>
    obtain rfl : ts = [] := by simpa using hts
    exact h.mono (List.subset_cons_self ..)
  | cons i items =>
    obtain ⟨t, ts, rfl, ht, -⟩ := List.map_eq_cons_iff.mp hts
    exact ⟨t, ts ++ rest, rfl, by simp [ht]⟩

/-- A loop over items with a separator in front of each; `I` holds of the value and the items that
are left. -/
theorem Steps.items {items : List ι} {itemKinds : ι → List TokenKind} {next : α → ι → α}
    (I : α → List ι → Prop)
    (hstep : ∀ a i items ts rest, I a (i :: items) → ts.map Token.kind = sep :: itemKinds i →
      Follows (sep :: after) rest →
        step a (ts ++ rest) = .ok (some (next a i, rest)) ∧ I (next a i) items)
    (ha : I a items) (hts : ts.map Token.kind = items.flatMap fun i => sep :: itemKinds i)
    (hrest : Follows after rest) : Steps step a (ts ++ rest) (items.foldl next a) rest := by
  induction items generalizing a ts with
  | nil =>
    obtain rfl : ts = [] := by simpa using hts
    exact .refl
  | cons i items ih =>
    rw [List.flatMap_cons, List.map_eq_append_iff] at hts
    obtain ⟨us, vs, rfl, hus, hvs⟩ := hts
    obtain ⟨hone, hnext⟩ := hstep a i items us (vs ++ rest) ha hus (hrest.items hvs)
    rw [List.append_assoc]
    refine .head hone ?_ (ih hnext hvs)
    have hlength : us.length = (itemKinds i).length + 1 := by
      rw [← List.length_map (f := Token.kind), hus, List.length_cons]
    simp [hlength]

section Lists

variable {β : Type} {item : Reader β} {start : β → α} {push : α → β → α} {i : ι} {items : List ι}
  {itemKinds : ι → List TokenKind} {value : ι → β}

theorem Reads.list (hsep : sep ∉ after)
    (hitem : ∀ j ∈ i :: items, Reads item (itemKinds j) (sep :: after) (value j)) :
    Reads (listReader sep item start push) (Token.joined sep ((i :: items).map itemKinds)) after
      (items.foldl (fun a j => push a (value j)) (start (value i))) := by
  intro ts rest hts hrest
  rw [List.map_cons, Token.joined, List.flatMap_map, List.map_eq_append_iff] at hts
  obtain ⟨us, vs, rfl, hus, hvs⟩ := hts
  obtain ⟨hfirst, hitems⟩ := List.forall_mem_cons.mp hitem
  rw [List.append_assoc, listReader, hfirst us (vs ++ rest) hus (hrest.items hvs)]
  refine Steps.loop (Steps.items (fun _ items => ∀ j ∈ items,
    Reads item (itemKinds j) (sep :: after) (value j)) ?_ hitems hvs hrest) ?_
  · intro a j items ts rest hitems hts hrest
    obtain ⟨hj, hitems⟩ := List.forall_mem_cons.mp hitems
    obtain ⟨t, us, rfl, rfl, hus⟩ := List.map_eq_cons_iff.mp hts
    refine ⟨?_, hitems⟩
    simp only [listStep, List.cons_append, eat?_cons, hj us rest hus hrest, bind, Except.bind]
  · simp only [listStep, hrest.eat?_eq_none hsep]

theorem Reads.single {b : β} (hsep : sep ∉ after) (hitem : Reads item kinds (sep :: after) b) :
    Reads (listReader sep item start push) kinds after (start b) := by
  have hlist : Reads (listReader sep item start push)
      (Token.joined sep ([()].map fun _ => kinds)) after (start b) :=
    Reads.list hsep fun _ _ => hitem
  simpa [Token.joined] using hlist

theorem Reads.collect (hsep : sep ∉ after)
    (hitem : ∀ j ∈ i :: items, Reads item (itemKinds j) (sep :: after) (value j)) :
    Reads (collect sep item)
      (Token.joined sep ((i :: items).map itemKinds)) after ((i :: items).map value) := by
  have hfold (items : List ι) (bs : List β) :
      items.foldl (fun bs j => bs ++ [value j]) bs = bs ++ items.map value := by
    induction items generalizing bs with
    | nil => simp
    | cons j items ih => simp [ih]
  have hlist : (i :: items).map value = items.foldl (fun bs j => bs ++ [value j]) [value i] := by
    rw [hfold]
    rfl
  rw [hlist]
  exact Reads.list hsep hitem

end Lists

end Reading

namespace IntegerSet.Reader

open Reading LoopAudit.Affine

variable {space : Space} {inner : Reader Affine} {e f g : Affine} {x : String} {c k : Int}
  {ts rest : List Token} {t : String × Int} {us vs : List (String × Int)} {depth : Nat}

section Forms

def ends : List TokenKind := [.rparen, .eq, .ge, .kwMod, .kwAnd, .kwOr, .rbrace]

theorem startsImplicitFactor_eq_false (h : Follows (.plus :: ends) rest) :
    startsImplicitFactor rest = false := by
  obtain ⟨⟨kind, span⟩, ts, rfl, ht⟩ := h
  simp only [ends, List.mem_cons, List.not_mem_nil, or_false] at ht
  rcases ht with rfl | rfl | rfl | rfl | rfl | rfl | rfl | rfl <;> rfl

theorem nextFactor?_eq_none (h : Follows (.plus :: ends) rest) : nextFactor? e rest = none := by
  rw [nextFactor?, startsImplicitFactor_eq_false h, h.eat?_eq_none (by decide)]
  simp

theorem product_of_factor (h : factor space inner ts = .ok (e, rest))
    (hrest : Follows (.plus :: ends) rest) : product space inner ts = .ok (e, rest) := by
  rw [product, h]
  refine Steps.refl.loop ?_
  simp only [productStep, nextFactor?_eq_none hrest]

theorem product_const (hrest : Follows (.plus :: ends) rest) {span : Span} :
    product space inner (⟨.int k, span⟩ :: rest) = .ok (.const k, rest) :=
  product_of_factor (by rw [factor]) hrest

theorem factor_name (hx : x ∈ space.names) {span : Span} :
    factor space inner (⟨.ident x, span⟩ :: rest) = .ok (.var x, rest) := by
  rw [factor, if_pos (Space.contains_iff.mpr hx)]

theorem product_term (hx : t.1 ∈ space.names) (hpos : 0 < t.2) (hfits : Word.Fits t.2)
    (hts : ts.map Token.kind = termTokens t) (hrest : Follows (.plus :: ends) rest) :
    product space inner (ts ++ rest) = .ok (⟨[t], 0⟩, rest) := by
  obtain ⟨x, c⟩ := t
  unfold termTokens at hts
  split_ifs at hts with hone
  · obtain ⟨span, rfl⟩ := eq_singleton_of_kinds hts
    obtain rfl : c = 1 := hone
    exact product_of_factor (factor_name hx) hrest
  · obtain ⟨⟨_, span⟩, us, rfl, rfl, hus⟩ := List.map_eq_cons_iff.mp hts
    obtain ⟨span', rfl⟩ := eq_singleton_of_kinds hus
    have hscale : (var x).scale c = .ok ⟨[(x, c)], 0⟩ := by
      have hterms : ∀ t ∈ [(x, (1 : Int))], Word.Fits (t.2 * c) := by simpa using hfits
      have hzero : Word.Fits (0 * c) := by
        rw [zero_mul]
        decide
      simpa [var, term] using scale_answers hpos.ne' hterms hzero
    have hfirst : factor space inner (⟨.int c, span⟩ :: ⟨.ident x, span'⟩ :: rest) =
        .ok (.const c, ⟨.ident x, span'⟩ :: rest) := by rw [factor]
    have hproduct : multiply span' (.const c) (.var x) = .ok ⟨[(x, c)], 0⟩ := by
      change located span' ((var x).scale c) = _
      rw [located_eq_ok]
      exact hscale
    change product space inner (⟨.int c, span⟩ :: ⟨.ident x, span'⟩ :: rest) = _
    rw [product, hfirst]
    refine Steps.loop (.head (b := ⟨[(x, c)], 0⟩) ?_ (Nat.lt_succ_self _) .refl) ?_
    · have hnext : nextFactor? (const c) (⟨.ident x, span'⟩ :: rest) =
          some (⟨.ident x, span'⟩ :: rest) := rfl
      simp only [productStep, hnext, factor_name hx, spanOf, hproduct, bind, Except.bind]
    · simp only [productStep, nextFactor?_eq_none hrest]

theorem sum_of_product (h : product space inner ts = .ok (e, rest)) :
    sum space inner ts = loop (sumStep space inner) e rest := by
  rw [sum, h]
  rfl

theorem sumStep_plus {t : Token} (ht : t.kind = .plus)
    (hproduct : product space inner ts = .ok (f, rest)) (hadd : e.add f = .ok g) :
    sumStep space inner e (t :: ts) = .ok (some (g, rest)) := by
  have heat : eat? .plus (t :: ts) = some (t.span, ts) := ht ▸ eat?_cons
  have hlocated : located t.span (e.add f) = .ok g := located_eq_ok.mpr hadd
  simp only [sumStep, heat, hproduct, hlocated, bind, Except.bind]

theorem sumStep_eq_none (h : Follows ends rest) : sumStep space inner e rest = .ok none := by
  have hplus : eat? .plus rest = none := h.eat?_eq_none (by decide)
  have hminus : eat? .minus rest = none := h.eat?_eq_none (by decide)
  simp only [sumStep, hplus, hminus]

theorem add_term (h : Canonical ⟨us ++ [t], 0⟩) (hfits : Word.Fits t.2) :
    add ⟨us, 0⟩ ⟨[t], 0⟩ = .ok ⟨us ++ [t], 0⟩ := by
  have hnames : ((us ++ [t]).map Prod.fst).Pairwise (· < ·) := h.1
  rw [List.map_append, List.pairwise_append] at hnames
  have hus : Canonical ⟨us, 0⟩ := ⟨hnames.1, fun u hu => h.2 u (List.mem_append_left _ hu)⟩
  have ht : Canonical ⟨[t], 0⟩ := ⟨hnames.2.1, fun u hu => h.2 u (List.mem_append_right _ hu)⟩
  have hfresh : ∀ x ∈ vars ⟨[t], 0⟩, x ∉ vars ⟨us, 0⟩ := fun x hx hmem =>
    lt_irrefl x (hnames.2.2 x hmem x hx)
  have hzero : Word.Fits (0 + 0) := by decide
  -- The sum exists and has the right value, which leaves one canonical form for it.
  obtain ⟨g, hg⟩ := add_answers ht hfresh (List.forall_mem_singleton.mpr hfits) hzero
  obtain ⟨hover, heval⟩ := add_spec ⟨hus, fun _ _ => trivial⟩ ⟨ht, fun _ _ => trivial⟩ hg
  rw [hg, hover.canonical.eq_of_eval h fun ρ => ?_]
  rw [heval, eval_append]

theorem add_const (hk : Word.Fits k) : add ⟨us, 0⟩ (.const k) = .ok ⟨us, k⟩ := by
  have hsum : exact (0 + k) = .ok k := exact_eq_ok_iff.mpr ⟨by rwa [zero_add], zero_add k⟩
  change addConstant ⟨us, 0⟩ k = _
  rw [addConstant_eq, hsum]
  rfl

theorem tail_steps (h : Unsigned (· ∈ space.names) ⟨us ++ vs, 0⟩)
    (hts : ts.map Token.kind = tailTokens vs) (hrest : Follows (.plus :: ends) rest) :
    Steps (sumStep space inner) ⟨us, 0⟩ (ts ++ rest) ⟨us ++ vs, 0⟩ rest := by
  have hfold (us vs : List (String × Int)) :
      vs.foldl (fun e t => ⟨e.terms ++ [t], 0⟩) (⟨us, 0⟩ : Affine) = ⟨us ++ vs, 0⟩ := by
    induction vs generalizing us with
    | nil => simp
    | cons t vs ih => simp [ih]
  rw [← hfold]
  refine Steps.items (fun e vs => Unsigned (· ∈ space.names) ⟨e.terms ++ vs, 0⟩ ∧ e.constant = 0) ?_
    ⟨h, rfl⟩ hts hrest
  rintro ⟨us, k⟩ t vs ts rest ⟨hus, rfl⟩ hts hrest
  obtain ⟨t', ts', rfl, ht', hterm⟩ := List.map_eq_cons_iff.mp hts
  have happend : us ++ t :: vs = us ++ [t] ++ vs := by simp
  have ht : t ∈ us ++ t :: vs := by simp
  obtain ⟨hpos, hfits⟩ := hus.coefficient t ht
  have hname := hus.within t.1 (List.mem_map_of_mem ht)
  have hprefix : Canonical ⟨us ++ [t], 0⟩ := by
    have hsub : (us ++ [t]).Sublist (us ++ t :: vs) := by
      rw [happend]
      exact List.sublist_append_left ..
    exact ⟨hus.canonical.1.sublist (hsub.map _), fun u hu => hus.canonical.2 u (hsub.subset hu)⟩
  rw [happend] at hus
  exact ⟨sumStep_plus ht' (product_term hname hpos hfits hterm (hrest.mono (by simp)))
    (add_term hprefix hfits), hus, rfl⟩

theorem constant_steps (hk : Word.Fits k) (hts : ts.map Token.kind = constantTokens k)
    (hrest : Follows ends rest) :
    Steps (sumStep space inner) ⟨us, 0⟩ (ts ++ rest) ⟨us, k⟩ rest := by
  unfold constantTokens at hts
  split_ifs at hts with hzero
  · obtain rfl : ts = [] := by simpa using hts
    rw [hzero]
    exact .refl
  · obtain ⟨t, us, rfl, ht, hus⟩ := List.map_eq_cons_iff.mp hts
    obtain ⟨span, rfl⟩ := eq_singleton_of_kinds hus
    have hrest' : Follows (.plus :: ends) rest := hrest.mono (List.subset_cons_self ..)
    refine .head (sumStep_plus ht (product_const hrest') (add_const hk)) ?_ .refl
    simp only [List.length_append, List.length_cons]
    omega

theorem affineWithin_reads (he : e.Unsigned (· ∈ space.names)) :
    Reads (affineWithin space (depth + 1)) e.tokens ends e := by
  intro ts rest hts hrest
  obtain ⟨terms, k⟩ := e
  have hrest' : Follows (.plus :: ends) rest := hrest.mono (List.subset_cons_self ..)
  rw [affineWithin]
  cases terms with
  | nil =>
    obtain ⟨span, rfl⟩ := eq_singleton_of_kinds hts
    change sum space _ (⟨.int k, span⟩ :: rest) = _
    rw [sum_of_product (product_const hrest')]
    exact Steps.refl.loop (sumStep_eq_none hrest)
  | cons t terms =>
    change ts.map Token.kind = termTokens t ++ tailTokens terms ++ constantTokens k at hts
    rw [List.append_assoc, List.map_eq_append_iff] at hts
    obtain ⟨us, vs, rfl, hus, hvs⟩ := hts
    obtain ⟨vs, ws, rfl, hvs, hws⟩ := List.map_eq_append_iff.mp hvs
    have hzero : Unsigned (· ∈ space.names) ⟨[t] ++ terms, 0⟩ :=
      ⟨⟨he.canonical, he.within⟩, he.coefficient, le_rfl, show Word.Fits 0 by decide⟩
    obtain ⟨hpos, hfits⟩ := he.coefficient t (List.mem_cons_self ..)
    have hname := he.within t.1 (List.mem_cons_self ..)
    have hconstant : Follows (.plus :: ends) (ws ++ rest) := by
      unfold constantTokens at hws
      split_ifs at hws
      · obtain rfl : ws = [] := by simpa using hws
        exact hrest'
      · obtain ⟨t, ws, rfl, ht, -⟩ := List.map_eq_cons_iff.mp hws
        exact ⟨t, ws ++ rest, rfl, by simp [ht]⟩
    have htail : Follows (.plus :: ends) (vs ++ (ws ++ rest)) :=
      (hconstant.items hvs).mono (by simp)
    rw [List.append_assoc, List.append_assoc,
      sum_of_product (product_term hname hpos hfits hus htail)]
    exact ((tail_steps hzero hvs hconstant).trans (constant_steps he.fits hws hrest)).loop
      (sumStep_eq_none hrest)

theorem affine_reads (he : e.Unsigned (· ∈ space.names)) : Reads (affine space) e.tokens ends e :=
  fun ts rest => affineWithin_reads he ts rest

theorem affine_reads_parens (he : e.Unsigned (· ∈ space.names)) :
    Reads (affine space) (.lparen :: e.tokens ++ [.rparen]) ends e := by
  intro ts rest hts hrest
  obtain ⟨⟨_, span⟩, ts', rfl, rfl, hts'⟩ := List.map_eq_cons_iff.mp hts
  obtain ⟨us, vs, rfl, hus, hvs⟩ := List.map_eq_append_iff.mp hts'
  obtain ⟨span', rfl⟩ := eq_singleton_of_kinds hvs
  have hclose : Follows ends (⟨.rparen, span'⟩ :: rest) := ⟨_, _, rfl, List.mem_cons_self ..⟩
  have hrest' : Follows (.plus :: ends) rest := hrest.mono (List.subset_cons_self ..)
  have hfactor : factor space (affineWithin space ((us ++ ⟨.rparen, span'⟩ :: rest).length + 1))
      (⟨.lparen, span⟩ :: (us ++ ⟨.rparen, span'⟩ :: rest)) = .ok (e, rest) := by
    rw [factor, affineWithin_reads he us _ hus hclose]
    rfl
  simp only [affine, List.cons_append, List.append_assoc, List.nil_append, List.length_cons]
  rw [affineWithin, sum_of_product (product_of_factor hfactor hrest')]
  exact Steps.refl.loop (sumStep_eq_none hrest)

end Forms

section Constraints

variable {c : Constraint} {m r : Int}

def stops : List TokenKind := [.kwAnd, .kwOr, .rbrace]

theorem stops_subset : stops ⊆ ends := by
  simp [stops, ends]

theorem sub_parts {V : String → Prop} (he : e.Over V) (hm : e.Moderate) :
    e.positivePart.sub e.negativePart = .ok e := by
  have hleft := positivePart_unsigned he hm
  have hright := negativePart_unsigned he hm
  -- A name has one coefficient, so that it stands on one side only and nothing can overflow.
  have hfresh : ∀ x ∈ e.negativePart.vars, x ∉ e.positivePart.vars := by
    intro x hx hx'
    obtain ⟨t, ht, rfl⟩ := List.mem_map.mp hx
    obtain ⟨u, hu, rfl⟩ := List.mem_map.mp ht
    obtain ⟨v, hv, hname⟩ := List.mem_map.mp hx'
    obtain ⟨hu, hneg⟩ := List.mem_filter.mp hu
    obtain ⟨hv, hpos⟩ := List.mem_filter.mp hv
    have hnodup := he.canonical.nodup
    have hsame : v.2 = u.2 := by
      rw [← coeff_of_mem hnodup hv, ← coeff_of_mem hnodup hu, hname]
    rw [hsame] at hpos
    exact of_decide_eq_true hneg (of_decide_eq_true hpos)
  have hfits : ∀ t ∈ e.negativePart.terms, Word.Fits (-t.2) := by
    intro t ht
    obtain ⟨u, hu, rfl⟩ := List.mem_map.mp ht
    rw [neg_neg]
    exact (hm.1 u (List.mem_filter.mp hu).1).1
  have hconstant : e.positivePart.constant - e.negativePart.constant = e.constant := by
    change max e.constant 0 - max (-e.constant) 0 = e.constant
    omega
  have hnegative : Word.Fits (-e.negativePart.constant) := by
    obtain ⟨-, hk, -⟩ := hm
    change Word.Fits (-max (-e.constant) 0)
    unfold Word.Fits Word.least Word.greatest at *
    omega
  obtain ⟨g, hg⟩ := sub_answers hright.canonical hfresh hfits hnegative (hconstant ▸ hm.2.1)
  obtain ⟨hover, heval⟩ := sub_spec hleft.toOver hright.toOver hg
  rw [hg, hover.canonical.eq_of_eval he.canonical fun ρ => ?_]
  rw [heval, eval_parts]

theorem sub_const (hr : Word.Fits (-r)) (hk : Word.Fits (k - r)) :
    sub ⟨us, k⟩ (.const r) = .ok ⟨us, k - r⟩ := by
  have hneg : neg (.const r) = .ok (.const (r * -1)) :=
    scale_answers (by decide) (fun _ ht => absurd ht List.not_mem_nil) (by rwa [mul_neg_one])
  have hsum : exact (k + r * -1) = .ok (k - r) := by
    rw [mul_neg_one, ← sub_eq_add_neg]
    exact exact_eq_ok_iff.mpr ⟨hk, rfl⟩
  rw [sub, hneg]
  change addConstant ⟨us, k⟩ (r * -1) = _
  rw [addConstant_eq, hsum]
  rfl

theorem congruence_const (hr : 0 ≤ r) (hlt : r < m) (hm : Word.Fits m) :
    congruence ⟨us, 0⟩ (.const r) m =
      .ok [⟨.mod m, ⟨us, -r⟩⟩, .ge (.const r), .ge (.const (m - r - 1))] := by
  -- All numbers in between are at most as large as the modulus.
  have hfits (v : Int) (hlow : -m ≤ v) (hhigh : v ≤ m) : Word.Fits v := by
    unfold Word.Fits Word.least Word.greatest at *
    omega
  have hforms : sub ⟨us, 0⟩ (.const r) = .ok ⟨us, -r⟩ := by
    rw [sub_const (hfits _ (by omega) (by omega)) (hfits _ (by omega) (by omega)), zero_sub]
  have hdivides : Constraint.divisible ⟨us, -r⟩ m = .ok ⟨.mod m, ⟨us, -r⟩⟩ := by
    have habs : (m.natAbs : Int) = m := by omega
    rw [Constraint.divisible, habs, exact_eq_ok_iff.mpr ⟨hm, rfl⟩]
    change Except.ok (if m = 0 then _ else _) = _
    rw [if_neg (by omega)]
  have hnonneg : Constraint.le .zero (.const r) = .ok (.ge (.const r)) := by
    have hsub : sub (.const r) (.const 0) = .ok (.const r) := by
      have hzero : sub (.const r) (.const 0) = .ok (.const (r - 0)) :=
        sub_const (by decide) (hfits _ (by omega) (by omega))
      rwa [sub_zero] at hzero
    rw [Constraint.le, Affine.zero, hsub]
    rfl
  have hbelow : Constraint.lt (.const r) (.const m) = .ok (.ge (.const (m - r - 1))) := by
    have hsub : sub (.const m) (.const r) = .ok (.const (m - r)) :=
      sub_const (hfits _ (by omega) (by omega)) (hfits _ (by omega) (by omega))
    have hone : (const (m - r)).addConstant (-1) = .ok (const (m - r - 1)) := by
      have hexact : exact (m - r + -1) = .ok (m - r - 1) :=
        exact_eq_ok_iff.mpr ⟨hfits _ (by omega) (by omega), rfl⟩
      rw [addConstant_eq, const, hexact]
      rfl
    simp only [Constraint.lt, hsub, hone, bind, Except.bind]
  simp only [congruence, hforms, hdivides, hnonneg, hbelow, bind, Except.bind]

/-- What the reader makes of a constraint: a congruence comes with the range of its residue. -/
def restated (c : Constraint) : List Constraint :=
  match c.relation with
  | .mod m =>
    let r := Constraint.residue c.form m
    [⟨.mod m, ⟨c.form.terms, -r⟩⟩, .ge (.const r), .ge (.const (m - r - 1))]
  | _ => [c]

theorem comparison?_eq_none (h : Follows stops rest) :
    ∃ t ts, rest = t :: ts ∧ comparison? t.kind = none := by
  obtain ⟨t, ts, rfl, ht⟩ := h
  refine ⟨t, ts, rfl, ?_⟩
  simp only [stops, List.mem_cons, List.not_mem_nil, or_false] at ht
  rcases ht with ht | ht | ht <;> rw [ht] <;> rfl

theorem comparisons_of_loop {cs : List Constraint}
    (h : loop (chainStep space) (e, []) ts = .ok ((f, cs), rest)) (hne : cs ≠ []) :
    comparisons space e ts = .ok (cs, rest) := by
  have hloop : comparisons space e ts = loop (chainStep space) (e, []) ts >>= fun r =>
      if r.1.2.isEmpty then .error ⟨"expected a comparison operator", spanOf r.2⟩
      else .ok (r.1.2, r.2) := rfl
  rw [hloop, h]
  exact if_neg (mt List.isEmpty_iff.mp hne)

theorem comparisons_reads {kind : TokenKind}
    {compare : Affine → Affine → Except SetError Constraint}
    (hkind : comparison? kind = some compare) (hf : f.Unsigned (· ∈ space.names))
    (hc : compare e f = .ok c) : Reads (comparisons space e) (kind :: f.tokens) stops [c] := by
  intro ts rest hts hrest
  obtain ⟨⟨_, span⟩, us, rfl, rfl, hus⟩ := List.map_eq_cons_iff.mp hts
  have haffine := affine_reads hf us rest hus (hrest.mono stops_subset)
  have hlocated : located span (compare e f) = .ok c := located_eq_ok.mpr hc
  refine comparisons_of_loop (Steps.loop (.head (b := (f, [c])) ?_ ?_ .refl) ?_) (by simp)
  · simp only [chainStep, List.cons_append, hkind, haffine, hlocated, List.nil_append, bind,
      Except.bind]
  · simp only [List.cons_append, List.length_cons, List.length_append]
    omega
  · obtain ⟨t, ts, rfl, ht⟩ := comparison?_eq_none hrest
    simp only [chainStep, ht]

theorem chain_comparison {kind : TokenKind} {compare : Affine → Affine → Except SetError Constraint}
    (hends : kind ∈ [.eq, .ge]) (hkind : comparison? kind = some compare)
    (he : e.Unsigned (· ∈ space.names)) (hf : f.Unsigned (· ∈ space.names))
    (hc : compare e f = .ok c) : Reads (chain space) (e.tokens ++ kind :: f.tokens) stops [c] := by
  intro ts rest hts hrest
  obtain ⟨us, vs, rfl, hus, hvs⟩ := List.map_eq_append_iff.mp hts
  have hcomparison := comparisons_reads hkind hf hc vs rest hvs hrest
  have hfollows : Follows [.eq, .ge] (vs ++ rest) := by
    obtain ⟨t, ws, rfl, ht, -⟩ := List.map_eq_cons_iff.mp hvs
    exact ⟨t, ws ++ rest, rfl, ht ▸ hends⟩
  have haffine := affine_reads he us (vs ++ rest) hus (hfollows.mono (by simp [ends]))
  have hmod : eat? .kwMod (vs ++ rest) = none := hfollows.eat?_eq_none (by decide)
  have hpercent : eat? .percent (vs ++ rest) = none := hfollows.eat?_eq_none (by decide)
  rw [List.append_assoc]
  simp only [chain, haffine, hmod, hpercent, hcomparison, bind, Except.bind]

theorem chain_congruence {kinds : List TokenKind} {cs : List Constraint}
    (he : Reads (affine space) kinds ends e) (hm : 0 < m) (hr : 0 ≤ r) (hfits : Word.Fits r)
    (hcs : congruence e (.const r) m = .ok cs) :
    Reads (chain space) (kinds ++ [.kwMod, .int m, .eq, .int r]) stops cs := by
  intro ts rest hts hrest
  obtain ⟨us, vs, rfl, hus, hvs⟩ := List.map_eq_append_iff.mp hts
  obtain ⟨⟨_, span₁⟩, vs₁, rfl, rfl, hvs₁⟩ := List.map_eq_cons_iff.mp hvs
  obtain ⟨⟨_, span₂⟩, vs₂, rfl, rfl, hvs₂⟩ := List.map_eq_cons_iff.mp hvs₁
  obtain ⟨⟨_, span₃⟩, vs₃, rfl, rfl, hvs₃⟩ := List.map_eq_cons_iff.mp hvs₂
  have hresidue : Unsigned (· ∈ space.names) (.const r) := ⟨.const r, nofun, hr, hfits⟩
  have haffine := affine_reads hresidue vs₃ rest hvs₃ (hrest.mono stops_subset)
  have hform := he us (⟨.kwMod, span₁⟩ :: ⟨.int m, span₂⟩ :: ⟨.eq, span₃⟩ :: vs₃ ++ rest) hus
    ⟨_, _, rfl, by simp [ends]⟩
  have hlocated : located (spanOf (vs₃ ++ rest)) (congruence e (.const r) m) = .ok cs :=
    located_eq_ok.mpr hcs
  rw [List.append_assoc, chain]
  simp only [List.cons_append] at hform ⊢
  rw [hform]
  change congruenceTail space e (⟨.int m, span₂⟩ :: ⟨.eq, span₃⟩ :: (vs₃ ++ rest)) = _
  have hequals : equalsSign (⟨.eq, span₃⟩ :: (vs₃ ++ rest)) = .ok (span₃, vs₃ ++ rest) := by
    simp [equalsSign, eat?]
  rw [congruenceTail, if_pos hm]
  simp only [hequals, haffine, hlocated, bind, Except.bind]

theorem shown_reads (he : (Constraint.residueForm e).Unsigned (· ∈ space.names)) :
    Reads (affine space) (Constraint.shownTokens e) ends (Constraint.residueForm e) := by
  unfold Constraint.shownTokens
  split
  · next x hterms =>
    have hform : Constraint.residueForm e = ⟨[(x, 1)], 0⟩ := by rw [Constraint.residueForm, hterms]
    rw [hform] at he ⊢
    exact affine_reads he
  · exact affine_reads_parens he

theorem chain_reads (hc : c.IsNormal (· ∈ space.names)) (hm : c.Moderate) :
    Reads (chain space) c.tokens stops (restated c) := by
  obtain ⟨relation, e⟩ := c
  have hparts := sub_parts hc.form hm.form
  have hleft := positivePart_unsigned hc.form hm.form
  have hright := negativePart_unsigned hc.form hm.form
  cases relation with
  | eq =>
    have hequal : Constraint.equal e.positivePart e.negativePart = .ok ⟨.eq, e⟩ := by
      rw [Constraint.equal, hparts]
      rfl
    exact chain_comparison (by decide) rfl hleft hright hequal
  | ge =>
    have hge : Constraint.le e.negativePart e.positivePart = .ok ⟨.ge, e⟩ := by
      rw [Constraint.le, hparts]
      rfl
    have hflip : comparison? .ge = some fun e f => Constraint.le f e := rfl
    exact chain_comparison (by decide) hflip hleft hright hge
  | mod m =>
    have hfits := hm.modulus m rfl
    obtain ⟨hnonneg, hlt, -⟩ := Constraint.residue_spec hc rfl hfits
    have hform := Constraint.residueForm_unsigned hc rfl hm
    exact chain_congruence (shown_reads hform) (hc.modulus_pos m rfl) hnonneg
      (Constraint.fits_residue hc rfl hfits) (congruence_const hnonneg hlt hfits)

end Constraints

end IntegerSet.Reader

end LoopAudit
