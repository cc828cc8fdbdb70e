import LoopAudit.Proofs.Spelling
import LoopAudit.Proofs.Rereading

/-! What the reader makes of the text of an expression. The tokens are followed through the three
levels of the grammar, up to a token that can only come after them; parentheses lead back to the
first level. -/

namespace LoopAudit.Expr.Reader

open Reading

open Token (joined)

variable {e x : Expr} {xs ys : List Expr} {kinds kinds' after : List TokenKind}
  {ts rest : List Token} {inner r : Reading.Reader Expr}

section Steps

variable {step : List Expr → List Token → Except SyntaxError (Option (List Expr × List Token))}

def Gathers (r : Reading.Reader Expr)
    (step : List Expr → List Token → Except SyntaxError (Option (List Expr × List Token)))
    (kinds after : List TokenKind) (items : List Expr) : Prop :=
  ∀ ts rest, ts.map Token.kind = kinds → Follows after rest →
    ∃ first us, r (ts ++ rest) = .ok (first, us) ∧ Steps step [first] us items rest

theorem Reads.gathers (h : Reads r kinds after e) : Gathers r step kinds after [e] :=
  fun ts rest hts hrest => ⟨e, rest, h ts rest hts hrest, .refl⟩

theorem Gathers.append (h : Gathers r step kinds after xs)
    (htail : ∀ ts rest, ts.map Token.kind = kinds' → Follows after rest →
      Follows after (ts ++ rest) ∧ Steps step xs (ts ++ rest) ys rest) :
    Gathers r step (kinds ++ kinds') after ys := by
  intro ts rest hts hrest
  obtain ⟨us, vs, rfl, hus, hvs⟩ := List.map_eq_append_iff.mp hts
  have ⟨hfollows, hsteps⟩ := htail vs rest hvs hrest
  have ⟨first, ws, hfirst, hws⟩ := h us (vs ++ rest) hus hfollows
  rw [List.append_assoc]
  exact ⟨first, ws, hfirst, hws.trans hsteps⟩

end Steps

def ends : List TokenKind := [.comma, .rparen, .rbracket, .eof]

def productEnds : List TokenKind := .plus :: .minus :: ends

def unaryEnds : List TokenKind := .star :: .slashSlash :: .percent :: productEnds

theorem ends_subset : ends ⊆ productEnds := by
  simp [ends, productEnds]

theorem productEnds_subset : productEnds ⊆ unaryEnds := by
  simp [ends, productEnds, unaryEnds]

theorem productStep_eq_none (h : Follows productEnds rest) :
    productStep inner xs rest = .ok none := by
  obtain ⟨⟨kind, span⟩, ts, rfl, ht⟩ := h
  simp only [productEnds, ends, List.mem_cons, List.not_mem_nil, or_false] at ht
  rcases ht with rfl | rfl | rfl | rfl | rfl | rfl <;> rfl

theorem sumStep_eq_none (h : Follows ends rest) : sumStep inner xs rest = .ok none := by
  obtain ⟨⟨kind, span⟩, ts, rfl, ht⟩ := h
  simp only [ends, List.mem_cons, List.not_mem_nil, or_false] at ht
  rcases ht with rfl | rfl | rfl | rfl <;> rfl

theorem Gathers.readsProduct (h : Gathers (unary inner) (productStep inner) kinds unaryEnds xs) :
    Reads (product inner) kinds productEnds (gather .product xs) := by
  intro ts rest hts hrest
  have ⟨first, us, hfirst, hsteps⟩ := h ts rest hts (hrest.mono productEnds_subset)
  have hloop := hsteps.loop (productStep_eq_none hrest)
  simp only [product, hfirst, hloop, bind, Except.bind]

theorem Gathers.readsSum (h : Gathers (product inner) (sumStep inner) kinds productEnds xs) :
    Reads (sum inner) kinds ends (gather .sum xs) := by
  intro ts rest hts hrest
  have ⟨first, us, hfirst, hsteps⟩ := h ts rest hts (hrest.mono ends_subset)
  have hloop := hsteps.loop (sumStep_eq_none hrest)
  simp only [sum, hfirst, hloop, bind, Except.bind]

section Tails

theorem tail_steps {item : Expr → List TokenKind}
    {step : List Expr → List Token → Except SyntaxError (Option (List Expr × List Token))}
    (h : ∀ y ∈ ys, ∀ xs ts rest, ts.map Token.kind = item y → Follows after rest →
      (∃ t us, ts = t :: us ∧ t.kind ∈ after) ∧
        step xs (ts ++ rest) = .ok (some (xs ++ [y.spliced], rest)))
    (hts : ts.map Token.kind = ys.flatMap item) (hrest : Follows after rest) :
    Follows after (ts ++ rest) ∧ Steps step xs (ts ++ rest) (xs ++ splicedAll ys) rest := by
  induction ys generalizing ts xs with
  | nil =>
    obtain rfl : ts = [] := by simpa using hts
    refine ⟨hrest, ?_⟩
    rw [splicedAll, List.append_nil]
    exact .refl
  | cons y ys ih =>
    obtain ⟨hy, hys⟩ := List.forall_mem_cons.mp h
    obtain ⟨us, vs, rfl, hus, hvs⟩ := List.map_eq_append_iff.mp hts
    obtain ⟨hfollows, hsteps⟩ := @ih (xs ++ [y.spliced]) vs hys hvs
    obtain ⟨⟨t, us, rfl, ht⟩, hstep⟩ := hy xs us (vs ++ rest) hus hfollows
    have hall : xs ++ splicedAll (y :: ys) = xs ++ [y.spliced] ++ splicedAll ys := by
      rw [splicedAll, List.append_assoc, List.singleton_append]
    rw [hall, List.append_assoc]
    refine ⟨⟨t, us ++ (vs ++ rest), rfl, ht⟩, .head hstep ?_ hsteps⟩
    simp only [List.length_cons, List.length_append]
    omega

theorem productStep_of_star {y : Expr} (xs : List Expr)
    (h : Reads (unary inner) (y.tokensAt 3) unaryEnds y.spliced)
    (hts : ts.map Token.kind = .star :: y.tokensAt 3) (hrest : Follows unaryEnds rest) :
    (∃ t us, ts = t :: us ∧ t.kind ∈ unaryEnds) ∧
      productStep inner xs (ts ++ rest) = .ok (some (xs ++ [y.spliced], rest)) := by
  obtain ⟨⟨_, span⟩, us, rfl, rfl, hus⟩ := List.map_eq_cons_iff.mp hts
  have hread := h us rest hus hrest
  refine ⟨⟨_, us, rfl, by simp [unaryEnds]⟩, ?_⟩
  simp only [List.cons_append, productStep, hread, bind, Except.bind]

theorem sumStep_of_sign {y : Expr} (xs : List Expr)
    (h : Reads (product inner) (y.unsigned.tokensAt 2) productEnds y.unsigned.spliced)
    (hts : ts.map Token.kind = y.signToken :: y.unsigned.tokensAt 2)
    (hrest : Follows productEnds rest) :
    (∃ t us, ts = t :: us ∧ t.kind ∈ productEnds) ∧
      sumStep inner xs (ts ++ rest) = .ok (some (xs ++ [y.spliced], rest)) := by
  obtain ⟨⟨kind, span⟩, us, rfl, hkind, hus⟩ := List.map_eq_cons_iff.mp hts
  have hread := h us rest hus hrest
  cases y with
  | neg y =>
    obtain rfl : kind = .minus := hkind
    refine ⟨⟨_, us, rfl, by simp [productEnds]⟩, ?_⟩
    simp only [List.cons_append, sumStep, hread, bind, Except.bind]
    rfl
  | _ =>
    obtain rfl : kind = .plus := hkind
    refine ⟨⟨_, us, rfl, by simp [productEnds]⟩, ?_⟩
    simp only [List.cons_append, sumStep, hread, bind, Except.bind]
    rfl

theorem productTail_steps (h : ∀ y ∈ ys, Reads (unary inner) (y.tokensAt 3) unaryEnds y.spliced)
    (hts : ts.map Token.kind = productTokens ys) (hrest : Follows unaryEnds rest) :
    Follows unaryEnds (ts ++ rest) ∧
      Steps (productStep inner) xs (ts ++ rest) (xs ++ splicedAll ys) rest :=
  tail_steps (fun y hy xs _ _ => productStep_of_star xs (h y hy))
    (hts.trans productTokens_eq_flatMap) hrest

theorem sumTail_steps
    (h : ∀ y ∈ ys, Reads (product inner) (y.unsigned.tokensAt 2) productEnds y.unsigned.spliced)
    (hts : ts.map Token.kind = sumTokens ys) (hrest : Follows productEnds rest) :
    Follows productEnds (ts ++ rest) ∧
      Steps (sumStep inner) xs (ts ++ rest) (xs ++ splicedAll ys) rest :=
  tail_steps (fun y hy xs _ _ => sumStep_of_sign xs (h y hy)) (hts.trans sumTokens_eq_flatMap) hrest

end Tails

section Gathered

theorem gather_of_length {wrap : List Expr → Expr} (h : 2 ≤ xs.length) :
    gather wrap xs = wrap xs := by
  match xs with
  | [] | [_] => simp at h
  | _ :: _ :: _ => rfl

theorem length_splicedAll : (splicedAll xs).length = xs.length := by
  rw [splicedAll_eq_map, List.length_map]

theorem spliced_items_length (hxs : xs ≠ []) (hys : ys ≠ []) :
    2 ≤ (xs ++ splicedAll ys).length := by
  have hxs := List.length_pos_iff.mpr hxs
  have hys := List.length_pos_iff.mpr hys
  rw [List.length_append, length_splicedAll]
  omega

theorem gather_items {wrap : List Expr → Expr} {items : Expr → List Expr}
    (hu : Unwraps wrap items) (x : Expr) (hys : ys ≠ []) :
    gather wrap (items (wrap (items x ++ splicedAll ys))) = wrap (items x ++ splicedAll ys) := by
  rw [hu.items_wrap (by simp [hu.ne_nil])]
  exact gather_of_length (spliced_items_length (hu.ne_nil x) hys)

theorem gather_terms (h : Legible e) : gather .sum e.spliced.terms = e.spliced := by
  cases h with
  | sum _ hne _ => exact gather_items terms_unwraps _ hne
  | _ => rfl

theorem gather_factors (h : Legible e) : gather .product e.spliced.factors = e.spliced := by
  cases h with
  | product _ hne _ => exact gather_items factors_unwraps _ hne
  | _ => rfl

end Gathered

section Levels

variable {depth : Nat}

/-- The tokens are read as the expression in front of further factors and terms, with brackets
nested as deep as there are tokens. -/
def ReadsUnary (kinds : List TokenKind) (e : Expr) : Prop :=
  ∀ depth, kinds.length ≤ depth → Reads (unary (exprWithin depth)) kinds unaryEnds e.spliced

def ReadsFactors (kinds : List TokenKind) (e : Expr) : Prop :=
  ∀ depth, kinds.length ≤ depth →
    Gathers (unary (exprWithin depth)) (productStep (exprWithin depth)) kinds unaryEnds
      e.spliced.factors

def ReadsTerms (kinds : List TokenKind) (e : Expr) : Prop :=
  ∀ depth, kinds.length ≤ depth →
    Gathers (product (exprWithin depth)) (sumStep (exprWithin depth)) kinds productEnds
      e.spliced.terms

structure Readable (e : Expr) : Prop where
  unary : ReadsUnary (e.tokensAt 3) e
  factors : ReadsFactors (e.tokensAt 2) e
  terms : ReadsTerms e.tokens e

theorem tokensAt_of_le {least : Nat} (h : least ≤ e.precedence) : e.tokensAt least = e.tokens :=
  if_neg (by omega)

theorem tokensAt_of_lt {least : Nat} (h : e.precedence < least) :
    e.tokensAt least = .lparen :: e.tokens ++ [.rparen] :=
  if_pos h

theorem ReadsTerms.reads (h : ReadsTerms e.tokens e) (he : Legible e)
    (hdepth : e.tokens.length ≤ depth) :
    Reads (exprWithin (depth + 1)) e.tokens ends e.spliced := by
  have hsum := (h depth hdepth).readsSum
  rwa [gather_terms he] at hsum

theorem ReadsFactors.reads (h : ReadsFactors kinds e) (he : Legible e)
    (hdepth : kinds.length ≤ depth) :
    Reads (product (exprWithin depth)) kinds productEnds e.spliced := by
  have hproduct := (h depth hdepth).readsProduct
  rwa [gather_factors he] at hproduct

theorem ReadsUnary.factors (h : ReadsUnary kinds e) (hone : e.spliced.factors = [e.spliced]) :
    ReadsFactors kinds e := by
  intro depth hdepth
  rw [hone]
  exact Reads.gathers (h depth hdepth)

theorem ReadsFactors.terms (h : ReadsFactors kinds e) (he : Legible e)
    (hone : e.spliced.terms = [e.spliced]) : ReadsTerms kinds e := by
  intro depth hdepth
  rw [hone]
  exact Reads.gathers (h.reads he hdepth)

theorem reads_parens (h : Reads (exprWithin depth) kinds ends e) :
    Reads (unary (exprWithin depth)) (.lparen :: kinds ++ [.rparen]) unaryEnds e := by
  intro ts rest hts _
  obtain ⟨us, vs, rfl, hus, hvs⟩ := List.map_eq_append_iff.mp hts
  obtain ⟨⟨_, span⟩, us, rfl, rfl, hinside⟩ := List.map_eq_cons_iff.mp hus
  obtain ⟨span', rfl⟩ := eq_singleton_of_kinds hvs
  have hread := h us (⟨.rparen, span'⟩ :: rest) hinside ⟨_, _, rfl, by simp [ends]⟩
  simp only [List.cons_append, List.append_assoc, List.nil_append, unary, hread, expect_cons, bind,
    Except.bind]

theorem ReadsTerms.parens (h : ReadsTerms e.tokens e) (he : Legible e)
    (hbare : e.precedence < 3) : ReadsUnary (e.tokensAt 3) e := by
  intro depth hdepth
  rw [tokensAt_of_lt hbare] at hdepth ⊢
  simp only [List.cons_append, List.length_cons, List.length_append] at hdepth
  obtain ⟨depth, rfl⟩ : ∃ d, depth = d + 1 := ⟨depth - 1, by omega⟩
  exact reads_parens (h.reads he (by omega))

theorem Readable.of_unary (he : Legible e) (hbare : 3 ≤ e.precedence)
    (hfactors : e.spliced.factors = [e.spliced]) (hterms : e.spliced.terms = [e.spliced])
    (h : ReadsUnary e.tokens e) : Readable e := by
  constructor
  · rwa [tokensAt_of_le hbare]
  · rw [tokensAt_of_le (by omega)]
    exact h.factors hfactors
  · exact (h.factors hfactors).terms he hterms

theorem Readable.of_factors (he : Legible e) (hbare : e.precedence = 2)
    (hone : e.spliced.terms = [e.spliced]) (h : ReadsFactors e.tokens e) : Readable e := by
  have hterms : ReadsTerms e.tokens e := h.terms he hone
  constructor
  · exact hterms.parens he (by omega)
  · rwa [tokensAt_of_le (by omega)]
  · exact hterms

theorem Readable.of_terms (he : Legible e) (hbare : e.precedence = 1)
    (hone : e.spliced.factors = [e.spliced]) (h : ReadsTerms e.tokens e) : Readable e := by
  have hunary : ReadsUnary (e.tokensAt 3) e := h.parens he (by omega)
  constructor
  · exact hunary
  · rw [tokensAt_of_lt (by omega)] at hunary ⊢
    exact hunary.factors hone
  · exact h

end Levels

section Brackets

variable {close : TokenKind} {depth : Nat}

theorem length_le_flatMap {f : Expr → List TokenKind} (h : x ∈ xs) :
    (f x).length ≤ (xs.flatMap f).length := by
  obtain ⟨us, vs, rfl⟩ := List.append_of_mem h
  simp only [List.flatMap_append, List.flatMap_cons, List.length_append]
  omega

theorem length_listTokens (h : x ∈ xs) : x.tokens.length ≤ (listTokens xs).length := by
  rw [listTokens_eq_joined]
  cases xs with
  | nil => cases h
  | cons y ys =>
    rw [List.map_cons, joined, List.flatMap_map, List.length_append]
    rcases List.mem_cons.mp h with rfl | h
    · exact Nat.le_add_right ..
    · have hlength := length_le_flatMap (f := fun y => .comma :: y.tokens) h
      rw [List.length_cons] at hlength
      omega

theorem items_read (hxs : ∀ x ∈ xs, Legible x) (h : ∀ x ∈ xs, Readable x)
    (hdepth : (listTokens xs).length ≤ depth) :
    ∀ x ∈ xs, Reads (exprWithin (depth + 1)) x.tokens ends x.spliced := by
  intro x hx
  exact (h x hx).terms.reads (hxs x hx) ((length_listTokens hx).trans hdepth)

theorem exprWithin_close (depth : Nat) (span : Span) (ts : List Token)
    (hclose : close ∈ [.rparen, .rbracket]) :
    ∃ err, exprWithin (depth + 1) (⟨close, span⟩ :: ts) = .error err := by
  simp only [List.mem_cons, List.not_mem_nil, or_false] at hclose
  rcases hclose with rfl | rfl
  · exact ⟨_, rfl⟩
  · exact ⟨_, rfl⟩

theorem bracketed_reads (what : String) (rest : List Token) (hclose : close ∈ [.rparen, .rbracket])
    (hxs : ∀ x ∈ xs, Reads (exprWithin (depth + 1)) x.tokens ends x.spliced)
    (hts : ts.map Token.kind = listTokens xs ++ [close]) :
    ∃ span, bracketed (exprWithin (depth + 1)) close what (ts ++ rest) =
      .ok ((splicedAll xs, span), rest) := by
  obtain ⟨us, vs, rfl, hus, hvs⟩ := List.map_eq_append_iff.mp hts
  obtain ⟨span, rfl⟩ := eq_singleton_of_kinds hvs
  refine ⟨span, ?_⟩
  rw [List.append_assoc, List.singleton_append]
  cases xs with
  | nil =>
    obtain rfl : us = [] := by simpa [listTokens] using hus
    have hnext : nextIs close (⟨close, span⟩ :: rest) = true := beq_self_eq_true close
    simp only [List.nil_append, bracketed, hnext, if_true, expect_cons, bind, Except.bind]
    rfl
  | cons x xs =>
    have hends : [.comma, close] ⊆ ends := by
      simp only [List.mem_cons, List.not_mem_nil, or_false] at hclose
      rcases hclose with rfl | rfl <;> simp [ends]
    have hcomma : .comma ∉ [close] := by
      simp only [List.mem_cons, List.not_mem_nil, or_false] at hclose
      rcases hclose with rfl | rfl <;> decide
    have hitems :
        ∀ y ∈ x :: xs, Reads (exprWithin (depth + 1)) y.tokens [.comma, close] y.spliced :=
      fun y hy ts rest hts hrest => hxs y hy ts rest hts (hrest.mono hends)
    have hcollect := Reads.collect hcomma hitems
    rw [listTokens_eq_joined] at hus
    have hlist : collect .comma (exprWithin (depth + 1)) (us ++ ⟨close, span⟩ :: rest) =
        .ok (splicedAll (x :: xs), ⟨close, span⟩ :: rest) := by
      rw [splicedAll_eq_map]
      exact hcollect us (⟨close, span⟩ :: rest) hus ⟨_, _, rfl, List.mem_singleton_self close⟩
    have hnext : nextIs close (us ++ ⟨close, span⟩ :: rest) = false := by
      rw [Bool.eq_false_iff]
      intro hnext
      obtain ⟨span', ts', heq⟩ := nextIs_iff.mp hnext
      rw [heq] at hlist
      obtain ⟨err, herr⟩ := exprWithin_close depth span' ts' hclose
      simp [collect, listReader, herr, bind, Except.bind] at hlist
    simp [bracketed, hnext, hlist, expect_cons, bind, Except.bind]

end Brackets

section Cases

variable {a b : Expr} {n : Int} {name : String}

theorem int_readsUnary : ReadsUnary (Expr.int n).tokens (.int n) := by
  intro depth _ ts rest hts _
  rw [tokens] at hts
  split_ifs at hts with hneg
  · obtain ⟨⟨_, span⟩, us, rfl, rfl, hus⟩ := List.map_eq_cons_iff.mp hts
    obtain ⟨span', rfl⟩ := eq_singleton_of_kinds hus
    have hopposite : opposite (.int (-n)) = .int n := by
      have hne : -n ≠ Word.least := by
        unfold Word.least
        omega
      rw [opposite, if_neg hne, neg_neg]
    simp only [List.cons_append, List.nil_append, unary, bind, Except.bind, hopposite]
    rfl
  · obtain ⟨span, rfl⟩ := eq_singleton_of_kinds hts
    rfl

theorem var_readsUnary : ReadsUnary (Expr.var name).tokens (.var name) := by
  intro depth _ ts rest hts hrest
  obtain ⟨span, rfl⟩ := eq_singleton_of_kinds hts
  have hbracket : eat? .lbracket rest = none := hrest.eat?_eq_none (by decide)
  have hparen : eat? .lparen rest = none := hrest.eat?_eq_none (by decide)
  simp only [List.singleton_append, unary, named, hbracket, hparen]
  rfl

theorem neg_readsUnary (hint : ∀ n, x ≠ .int n) (h : Readable x) :
    ReadsUnary (Expr.neg x).tokens (.neg x) := by
  intro depth hdepth ts rest hts hrest
  obtain ⟨⟨_, span⟩, us, rfl, rfl, hus⟩ := List.map_eq_cons_iff.mp hts
  have hread := h.unary depth (Nat.le_of_succ_le hdepth) us rest hus hrest
  have hopposite : opposite x.spliced = .neg x.spliced := by
    rcases x with n | _ | (_ | _) | (_ | _) | _ | _ | _ | _ | _
    case int => exact absurd rfl (hint n)
    all_goals rfl
  simp only [List.cons_append, unary, hread, bind, Except.bind, hopposite]
  rfl

/-- After a name, items in brackets nested less deep than there are tokens. -/
theorem named_reads {opening close : TokenKind} {depth : Nat} (what : String) (rest : List Token)
    (hclose : close ∈ [.rparen, .rbracket]) (hxs : ∀ x ∈ xs, Legible x)
    (h : ∀ x ∈ xs, Readable x)
    (hdepth : (.ident name :: opening :: listTokens xs ++ [close]).length ≤ depth)
    (hts : ts.map Token.kind = .ident name :: opening :: listTokens xs ++ [close]) :
    ∃ span span' us last, ts = ⟨.ident name, span⟩ :: ⟨opening, span'⟩ :: us ∧
      bracketed (exprWithin depth) close what (us ++ rest) =
        .ok ((splicedAll xs, last), rest) := by
  simp only [List.cons_append, List.length_cons, List.length_append] at hdepth
  obtain ⟨depth, rfl⟩ : ∃ d, depth = d + 1 := ⟨depth - 1, by omega⟩
  obtain ⟨⟨_, span⟩, us, rfl, rfl, hus⟩ := List.map_eq_cons_iff.mp hts
  obtain ⟨⟨_, span'⟩, vs, rfl, rfl, hvs⟩ := List.map_eq_cons_iff.mp hus
  have hshort : (listTokens xs).length ≤ depth := by omega
  obtain ⟨last, hread⟩ := bracketed_reads what rest hclose (items_read hxs h hshort) hvs
  exact ⟨span, span', vs, last, rfl, hread⟩

theorem subscript_readsUnary (hne : xs ≠ []) (hxs : ∀ x ∈ xs, Legible x)
    (h : ∀ x ∈ xs, Readable x) :
    ReadsUnary (Expr.subscript name xs).tokens (.subscript name xs) := by
  intro depth hdepth ts rest hts _
  rw [tokens] at hdepth hts
  obtain ⟨span, span', us, last, rfl, hread⟩ :=
    named_reads "']'" rest (by simp) hxs h hdepth hts
  have hempty : (splicedAll xs).isEmpty = false := by
    cases xs with
    | nil => exact absurd rfl hne
    | cons x xs => rfl
  simp [unary, named, eat?, hread, hempty, spliced, bind, Except.bind]

theorem call_readsUnary (hxs : ∀ x ∈ xs, Legible x) (h : ∀ x ∈ xs, Readable x) :
    ReadsUnary (Expr.call name xs).tokens (.call name xs) := by
  intro depth hdepth ts rest hts _
  rw [tokens] at hdepth hts
  obtain ⟨span, span', us, last, rfl, hread⟩ :=
    named_reads "')'" rest (by simp) hxs h hdepth hts
  simp [unary, named, eat?, hread, spliced, bind, Except.bind]

theorem sum_readsTerms (hx : Readable x) (hys : ∀ y ∈ ys, Legible y.unsigned)
    (h : ∀ y ∈ ys, Readable y.unsigned) :
    ReadsTerms (Expr.sum (x :: ys)).tokens (.sum (x :: ys)) := by
  intro depth hdepth
  rw [tokens, List.length_append] at hdepth
  rw [tokens, spliced, terms_unwraps.items_wrap (by simp [terms_unwraps.ne_nil])]
  refine (hx.terms depth (by omega)).append fun ts rest => sumTail_steps fun y hy => ?_
  have hlength := length_le_flatMap (f := fun y => y.signToken :: y.unsigned.tokensAt 2) hy
  rw [← sumTokens_eq_flatMap, List.length_cons] at hlength
  exact (h y hy).factors.reads (hys y hy) (by omega)

theorem product_readsFactors (hx : Readable x) (h : ∀ y ∈ ys, Readable y) :
    ReadsFactors (Expr.product (x :: ys)).tokens (.product (x :: ys)) := by
  intro depth hdepth
  rw [tokens, List.length_append] at hdepth
  rw [tokens, spliced, factors_unwraps.items_wrap (by simp [factors_unwraps.ne_nil])]
  refine (hx.factors depth (Nat.le_of_add_right_le hdepth)).append fun ts rest =>
    productTail_steps fun y hy => ?_
  have hlength := length_le_flatMap (f := fun y => .star :: y.tokensAt 3) hy
  rw [← productTokens_eq_flatMap, List.length_cons] at hlength
  exact (h y hy).unary depth (by omega)

theorem division_readsFactors {op : Expr → Expr → Expr} {kind : TokenKind}
    (hkind : kind ∈ unaryEnds)
    (hstep : ∀ {inner : Reading.Reader Expr} {fs : List Expr} {e : Expr} {span : Span}
      {us rest : List Token}, unary inner us = .ok (e, rest) →
      productStep inner fs (⟨kind, span⟩ :: us) = .ok (some ([op (gather .product fs) e], rest)))
    (htokens : (op a b).tokens = a.tokensAt 2 ++ kind :: b.tokensAt 3)
    (hfactors : (op a b).spliced.factors = [op a.spliced b.spliced])
    (ha : Legible a) (hleft : Readable a) (hright : Readable b) :
    ReadsFactors (op a b).tokens (op a b) := by
  intro depth hdepth
  rw [htokens] at hdepth ⊢
  rw [List.length_append, List.length_cons] at hdepth
  rw [hfactors]
  refine (hleft.factors depth (by omega)).append fun ts rest hts hrest => ?_
  obtain ⟨⟨_, span⟩, us, rfl, rfl, hus⟩ := List.map_eq_cons_iff.mp hts
  have hread := hright.unary depth (by omega) us rest hus hrest
  refine ⟨⟨_, _, rfl, hkind⟩, .head (hstep hread) ?_ ?_⟩
  · simp only [List.length_cons, List.length_append]
    omega
  · rw [gather_factors ha]
    exact .refl

theorem readable (h : Legible e) : Readable e := by
  induction h with
  | int hfits hleast =>
    refine .of_unary (.int hfits hleast) ?_ rfl rfl int_readsUnary
    dsimp only [precedence]
    split_ifs <;> omega
  | var hx => exact .of_unary (.var hx) (Nat.le_succ 3) rfl rfl var_readsUnary
  | sum hx hne hys ihx ihys =>
    exact .of_terms (.sum hx hne hys) rfl rfl (sum_readsTerms ihx hys ihys)
  | product hx hne hys ihx ihys =>
    exact .of_factors (.product hx hne hys) rfl rfl (product_readsFactors ihx ihys)
  | neg hx hint ih =>
    exact .of_unary (.neg hx hint) le_rfl rfl rfl (neg_readsUnary hint ih)
  | floorDiv ha hb iha ihb =>
    refine .of_factors (.floorDiv ha hb) rfl rfl ?_
    refine division_readsFactors (by simp [unaryEnds]) (fun h => ?_) rfl rfl ha iha ihb
    simp only [productStep, h, bind, Except.bind]
  | remainder ha hb iha ihb =>
    refine .of_factors (.remainder ha hb) rfl rfl ?_
    refine division_readsFactors (by simp [unaryEnds]) (fun h => ?_) rfl rfl ha iha ihb
    simp only [productStep, h, bind, Except.bind]
  | subscript ha hne hindex ih =>
    exact .of_unary (.subscript ha hne hindex) (Nat.le_succ 3) rfl rfl
      (subscript_readsUnary hne hindex ih)
  | call hf hargs ih =>
    exact .of_unary (.call hf hargs) (Nat.le_succ 3) rfl rfl (call_readsUnary hargs ih)

end Cases

end LoopAudit.Expr.Reader

namespace LoopAudit.Expr

theorem parse_of_legible {e : Expr} (h : Legible e) : parse e.text = .ok e.spliced := by
  have ⟨ts, hscan, hkinds⟩ := h.spells.scan
  obtain ⟨us, vs, rfl, hus, hvs⟩ := List.map_eq_append_iff.mp hkinds
  obtain ⟨span, rfl⟩ := Reading.eq_singleton_of_kinds hvs
  have hlength : e.tokens.length ≤ (us ++ [(⟨.eof, span⟩ : Token)]).length := by
    rw [← hus, List.length_map, List.length_append]
    omega
  have hread := (Reader.readable h).terms.reads h hlength us [⟨.eof, span⟩] hus
    ⟨_, _, rfl, by simp [Reader.ends]⟩
  have hend : Reading.expectEnd [⟨.eof, span⟩] = .ok () := rfl
  simp only [parse, hscan, Reader.expr, hread, hend, bind, Except.bind]

/-- Parsed text can be printed and parsed again: sums at the front of sums and products at the
front of products are spliced in, and nothing that can be observed of the expression changes. -/
theorem parse_roundTrip {src : String} {e : Expr} (h : parse src = .ok e) :
    parse e.text = .ok e.spliced ∧ e.spliced.text = e.text ∧
      (∀ values, e.spliced.evaluate values = e.evaluate values) ∧
      e.spliced.linearize = e.linearize ∧ e.spliced.dependencies = e.dependencies ∧
      e.spliced.subscriptTexts = e.subscriptTexts ∧
      Flat e.spliced ∧ (Flat e → e.spliced = e) := by
  have hlegible : Legible e := parse_legible h
  exact ⟨parse_of_legible hlegible, text_spliced e, fun _ => evaluate_spliced e,
    linearize_spliced e, dependencies_spliced e, subscriptTexts_spliced e, flat_spliced hlegible,
    spliced_of_flat⟩

theorem nested_roundTrip : ∃ e, parse "(i + j) - (2 * k) * -a[(i - 1) // 4]" = .ok e ∧
    e.text = "i + j - 2 * k * -a[(i - 1) // 4]" ∧ e.spliced.same e = false ∧
    parse "i + j - 2 * k * -a[(i - 1) // 4]" = .ok e.spliced := by
  have hread : (parse "(i + j) - (2 * k) * -a[(i - 1) // 4]").toOption.map
      (fun e => (e.text, e.spliced.same e)) =
        some ("i + j - 2 * k * -a[(i - 1) // 4]", false) := by
    decide +kernel
  cases hparse : parse "(i + j) - (2 * k) * -a[(i - 1) // 4]" with
  | error _ =>
    rw [hparse] at hread
    cases hread
  | ok e =>
    obtain ⟨htext, hsame⟩ : e.text = "i + j - 2 * k * -a[(i - 1) // 4]" ∧
        e.spliced.same e = false := by
      simpa [hparse, Except.toOption] using hread
    exact ⟨e, rfl, htext, hsame, htext ▸ (parse_roundTrip hparse).1⟩

end LoopAudit.Expr
