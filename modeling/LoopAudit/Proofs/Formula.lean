import LoopAudit.Space
import LoopAudit.Proofs.Scanning

/-! The notation for integer sets: how a description is spelled as tokens, and what it says about an
assignment. No sequence of tokens spells two descriptions. -/

namespace LoopAudit.Formula

mutual

inductive Atom where
  | name (x : String)
  | group (e : Form)

inductive Factor where
  | number (n : Int)
  | atom (a : Atom)
  | neg (f : Factor)

inductive Factors where
  | done
  | times (f : Factor) (rest : Factors)
  | next (a : Atom) (rest : Factors)

inductive Product where
  | mk (first : Factor) (rest : Factors)

inductive Terms where
  | done
  | plus (p : Product) (rest : Terms)
  | minus (p : Product) (rest : Terms)

inductive Form where
  | mk (first : Product) (rest : Terms)

end

section Tokens

mutual

def Atom.tokens : Atom → List TokenKind
  | .name x => [.ident x]
  | .group e => .lparen :: (e.tokens ++ [.rparen])

def Factor.tokens : Factor → List TokenKind
  | .number n => [.int n]
  | .atom a => a.tokens
  | .neg f => .minus :: f.tokens

def Factors.tokens : Factors → List TokenKind
  | .done => []
  | .times f rest => .star :: (f.tokens ++ rest.tokens)
  | .next a rest => a.tokens ++ rest.tokens

def Product.tokens : Product → List TokenKind
  | .mk first rest => first.tokens ++ rest.tokens

def Terms.tokens : Terms → List TokenKind
  | .done => []
  | .plus p rest => .plus :: (p.tokens ++ rest.tokens)
  | .minus p rest => .minus :: (p.tokens ++ rest.tokens)

def Form.tokens : Form → List TokenKind
  | .mk first rest => first.tokens ++ rest.tokens

end

end Tokens

section Values

variable (ρ : String → Int)

-- The value of a rest is a function of the value of what stands before it, so that products and
-- sums are taken from the left.
mutual

def Atom.value : Atom → Int
  | .name x => ρ x
  | .group e => e.value

def Factor.value : Factor → Int
  | .number n => n
  | .atom a => a.value
  | .neg f => -f.value

def Factors.value : Factors → Int → Int
  | .done, v => v
  | .times f rest, v => rest.value (v * f.value)
  | .next a rest, v => rest.value (v * a.value)

def Product.value : Product → Int
  | .mk first rest => rest.value first.value

def Terms.value : Terms → Int → Int
  | .done, v => v
  | .plus p rest, v => rest.value (v + p.value)
  | .minus p rest, v => rest.value (v - p.value)

def Form.value : Form → Int
  | .mk first rest => rest.value first.value

end

end Values

inductive Equals where
  | single
  | double

inductive Modulo where
  | word
  | percent

inductive Comparison where
  | lt
  | le
  | gt
  | ge
  | equal (sign : Equals)

structure Link where
  comparison : Comparison
  form : Form

inductive Conjunct where
  | always
  | never
  | chain (first : Form) (link : Link) (links : List Link)
  | congruence (e : Form) (modulo : Modulo) (m : Int) (equals : Equals) (f : Form)

structure Series (α : Type) where
  first : α
  rest : List α

structure Description where
  params : Option (List String)
  dims : Option (List String)
  body : Option (Series (Series Conjunct))

def Equals.token : Equals → TokenKind
  | .single => .eq
  | .double => .eqEq

def Modulo.token : Modulo → TokenKind
  | .word => .kwMod
  | .percent => .percent

def Comparison.token : Comparison → TokenKind
  | .lt => .lt
  | .le => .le
  | .gt => .gt
  | .ge => .ge
  | .equal sign => sign.token

def Link.tokens (l : Link) : List TokenKind := l.comparison.token :: l.form.tokens

def Conjunct.tokens : Conjunct → List TokenKind
  | .always => [.kwTrue]
  | .never => [.kwFalse]
  | .chain first link links => first.tokens ++ (link :: links).flatMap Link.tokens
  | .congruence e modulo m equals f =>
    e.tokens ++ modulo.token :: .int m :: equals.token :: f.tokens

def Series.tokens {α : Type} (sep : TokenKind) (item : α → List TokenKind) (s : Series α) :
    List TokenKind :=
  item s.first ++ s.rest.flatMap fun a => sep :: item a

def nameTokens (names : List String) : List TokenKind :=
  .lbracket :: (Token.joined .comma (names.map fun x => [.ident x]) ++ [.rbracket])

def disjunctionTokens (body : Series (Series Conjunct)) : List TokenKind :=
  body.tokens .kwOr fun conjuncts => conjuncts.tokens .kwAnd Conjunct.tokens

def Description.tokens (d : Description) : List TokenKind :=
  d.params.elim [] (fun names => nameTokens names ++ [.arrow]) ++
    .lbrace :: (d.dims.elim [] nameTokens ++
      (d.body.elim [] (fun body => .colon :: disjunctionTokens body) ++ [.rbrace]))

section Meaning

variable (ρ : String → Int)

def Comparison.Holds (v w : Int) : Comparison → Prop
  | .lt => v < w
  | .le => v ≤ w
  | .gt => v > w
  | .ge => v ≥ w
  | .equal _ => v = w

def LinksHold : Int → List Link → Prop
  | _, [] => True
  | v, l :: links => l.comparison.Holds v (l.form.value ρ) ∧ LinksHold (l.form.value ρ) links

def Conjunct.Holds : Conjunct → Prop
  | .always => True
  | .never => False
  | .chain first link links => LinksHold ρ (first.value ρ) (link :: links)
  | .congruence e _ m _ f => e.value ρ % m = f.value ρ

def Series.toList {α : Type} (s : Series α) : List α := s.first :: s.rest

def Description.Holds (d : Description) : Prop :=
  ∀ body ∈ d.body, ∃ conjuncts ∈ body.toList, ∀ c ∈ conjuncts.toList, c.Holds ρ

end Meaning

def Description.space (d : Description) : Space := ⟨d.params.getD [], d.dims.getD []⟩

section Unambiguity

variable {rest rest' kinds : List TokenKind} {after later : List TokenKind}

def Starts (after rest : List TokenKind) : Prop := ∃ k ks, rest = k :: ks ∧ k ∈ after

theorem Starts.mono (h : Starts after rest) (hsub : after ⊆ later) : Starts later rest := by
  obtain ⟨k, ks, rfl, hk⟩ := h
  exact ⟨k, ks, rfl, hsub hk⟩

theorem starts_cons {k : TokenKind} : Starts after (k :: rest) ↔ k ∈ after := by
  simp [Starts]

def formEnds : List TokenKind :=
  [.rparen, .lt, .le, .gt, .ge, .eq, .eqEq, .kwMod, .percent, .kwAnd, .kwOr, .rbrace]

def productEnds : List TokenKind := .plus :: .minus :: formEnds

theorem Starts.productEnds (h : Starts formEnds rest) : Starts productEnds rest :=
  h.mono (by simp [Formula.productEnds])

theorem Terms.starts (terms : Terms) (h : Starts formEnds rest) :
    Starts productEnds (terms.tokens ++ rest) := by
  cases terms with
  | done => simpa [Terms.tokens] using h.productEnds
  | plus => exact starts_cons.mpr (by simp [Formula.productEnds])
  | minus => exact starts_cons.mpr (by simp [Formula.productEnds])

theorem Factors.eq_done {fs : Factors} (hrest : Starts productEnds rest)
    (h : fs.tokens ++ rest' = rest) : fs = .done := by
  rw [← h] at hrest
  cases fs with
  | done => rfl
  | times => simp [Factors.tokens, starts_cons, productEnds, formEnds] at hrest
  | next a => cases a <;>
    simp [Factors.tokens, Atom.tokens, starts_cons, productEnds, formEnds] at hrest

theorem Terms.eq_done {ts : Terms} (hrest : Starts formEnds rest)
    (h : ts.tokens ++ rest' = rest) : ts = .done := by
  rw [← h] at hrest
  cases ts with
  | done => rfl
  | plus => simp [Terms.tokens, starts_cons, formEnds] at hrest
  | minus => simp [Terms.tokens, starts_cons, formEnds] at hrest

-- Induction on the first of two trees with the same tokens; what follows a tree cannot continue it.
mutual

theorem Atom.tokens_inj (a a' : Atom) {rest rest' : List TokenKind}
    (h : a.tokens ++ rest = a'.tokens ++ rest') : a = a' ∧ rest = rest' := by
  match a, a' with
  | .name x, .name y =>
    simp only [Atom.tokens, List.singleton_append, List.cons.injEq, TokenKind.ident.injEq] at h
    exact ⟨congrArg _ h.1, h.2⟩
  | .group e, .group e' =>
    simp only [Atom.tokens, List.cons_append, List.append_assoc, List.cons.injEq, true_and] at h
    obtain ⟨rfl, hrest⟩ := e.tokens_inj e' (starts_cons.mpr (by simp [formEnds]))
      (starts_cons.mpr (by simp [formEnds])) h
    exact ⟨rfl, by simpa using hrest⟩
  | .name x, .group e' => simp [Atom.tokens] at h
  | .group e, .name y => simp [Atom.tokens] at h

theorem Factor.tokens_inj (f f' : Factor) {rest rest' : List TokenKind}
    (h : f.tokens ++ rest = f'.tokens ++ rest') : f = f' ∧ rest = rest' := by
  match f, f' with
  | .number m, .number n =>
    simp only [Factor.tokens, List.singleton_append, List.cons.injEq, TokenKind.int.injEq] at h
    exact ⟨congrArg _ h.1, h.2⟩
  | .atom a, .atom a' =>
    obtain ⟨rfl, hrest⟩ := a.tokens_inj a' h
    exact ⟨rfl, hrest⟩
  | .neg f, .neg f' =>
    obtain ⟨rfl, hrest⟩ := f.tokens_inj f' (List.cons.inj h).2
    exact ⟨rfl, hrest⟩
  | .number m, .atom a' => cases a' <;> simp [Factor.tokens, Atom.tokens] at h
  | .number m, .neg f' => simp [Factor.tokens] at h
  | .atom a, .number n => cases a <;> simp [Factor.tokens, Atom.tokens] at h
  | .atom a, .neg f' => cases a <;> simp [Factor.tokens, Atom.tokens] at h
  | .neg f, .number n => simp [Factor.tokens] at h
  | .neg f, .atom a' => cases a' <;> simp [Factor.tokens, Atom.tokens] at h

theorem Factors.tokens_inj (fs fs' : Factors) {rest rest' : List TokenKind}
    (hrest : Starts productEnds rest) (hrest' : Starts productEnds rest')
    (h : fs.tokens ++ rest = fs'.tokens ++ rest') : fs = fs' ∧ rest = rest' := by
  match fs, fs' with
  | .done, .done => exact ⟨rfl, h⟩
  | .times f fs, .times f' fs' =>
    simp only [Factors.tokens, List.cons_append, List.append_assoc, List.cons.injEq, true_and] at h
    obtain ⟨rfl, htail⟩ := f.tokens_inj f' h
    obtain ⟨rfl, hend⟩ := fs.tokens_inj fs' hrest hrest' htail
    exact ⟨rfl, hend⟩
  | .next a fs, .next a' fs' =>
    simp only [Factors.tokens, List.append_assoc] at h
    obtain ⟨rfl, htail⟩ := a.tokens_inj a' h
    obtain ⟨rfl, hend⟩ := fs.tokens_inj fs' hrest hrest' htail
    exact ⟨rfl, hend⟩
  | .times f fs, .next a' fs' => cases a' <;> simp [Factors.tokens, Atom.tokens] at h
  | .next a fs, .times f' fs' => cases a <;> simp [Factors.tokens, Atom.tokens] at h
  | .done, .times f' fs' => cases Factors.eq_done hrest h.symm
  | .done, .next a' fs' => cases Factors.eq_done hrest h.symm
  | .times f fs, .done => cases Factors.eq_done hrest' h
  | .next a fs, .done => cases Factors.eq_done hrest' h

theorem Product.tokens_inj (p p' : Product) {rest rest' : List TokenKind}
    (hrest : Starts productEnds rest) (hrest' : Starts productEnds rest')
    (h : p.tokens ++ rest = p'.tokens ++ rest') : p = p' ∧ rest = rest' := by
  match p, p' with
  | .mk f fs, .mk f' fs' =>
    simp only [Product.tokens, List.append_assoc] at h
    obtain ⟨rfl, htail⟩ := f.tokens_inj f' h
    obtain ⟨rfl, hend⟩ := fs.tokens_inj fs' hrest hrest' htail
    exact ⟨rfl, hend⟩

theorem Terms.tokens_inj (ts ts' : Terms) {rest rest' : List TokenKind}
    (hrest : Starts formEnds rest) (hrest' : Starts formEnds rest')
    (h : ts.tokens ++ rest = ts'.tokens ++ rest') : ts = ts' ∧ rest = rest' := by
  match ts, ts' with
  | .done, .done => exact ⟨rfl, h⟩
  | .plus p ts, .plus p' ts' =>
    simp only [Terms.tokens, List.cons_append, List.append_assoc, List.cons.injEq, true_and] at h
    obtain ⟨rfl, htail⟩ := p.tokens_inj p' (ts.starts hrest) (ts'.starts hrest') h
    obtain ⟨rfl, hend⟩ := ts.tokens_inj ts' hrest hrest' htail
    exact ⟨rfl, hend⟩
  | .minus p ts, .minus p' ts' =>
    simp only [Terms.tokens, List.cons_append, List.append_assoc, List.cons.injEq, true_and] at h
    obtain ⟨rfl, htail⟩ := p.tokens_inj p' (ts.starts hrest) (ts'.starts hrest') h
    obtain ⟨rfl, hend⟩ := ts.tokens_inj ts' hrest hrest' htail
    exact ⟨rfl, hend⟩
  | .plus p ts, .minus p' ts' => simp [Terms.tokens] at h
  | .minus p ts, .plus p' ts' => simp [Terms.tokens] at h
  | .done, .plus p' ts' => cases Terms.eq_done hrest h.symm
  | .done, .minus p' ts' => cases Terms.eq_done hrest h.symm
  | .plus p ts, .done => cases Terms.eq_done hrest' h
  | .minus p ts, .done => cases Terms.eq_done hrest' h

theorem Form.tokens_inj (e e' : Form) {rest rest' : List TokenKind}
    (hrest : Starts formEnds rest) (hrest' : Starts formEnds rest')
    (h : e.tokens ++ rest = e'.tokens ++ rest') : e = e' ∧ rest = rest' := by
  match e, e' with
  | .mk p ts, .mk p' ts' =>
    simp only [Form.tokens, List.append_assoc] at h
    obtain ⟨rfl, htail⟩ := p.tokens_inj p' (ts.starts hrest) (ts'.starts hrest') h
    obtain ⟨rfl, hend⟩ := ts.tokens_inj ts' hrest hrest' htail
    exact ⟨rfl, hend⟩

end

theorem Form.tokens_ne (e : Form) {k : TokenKind} {ks : List TokenKind}
    (h : e.tokens ++ rest = k :: ks) : k ≠ .kwTrue ∧ k ≠ .kwFalse := by
  obtain ⟨⟨f, fs⟩, ts⟩ := e
  rcases f with n | a | f
  · simp only [Form.tokens, Product.tokens, Factor.tokens, List.cons_append, List.cons.injEq] at h
    simp [← h.1]
  · rcases a with x | e <;>
    · simp only [Form.tokens, Product.tokens, Factor.tokens, Atom.tokens, List.cons_append,
        List.cons.injEq] at h
      simp [← h.1]
  · simp only [Form.tokens, Product.tokens, Factor.tokens, List.cons_append, List.cons.injEq] at h
    simp [← h.1]

section Lists

variable {α : Type} {item : α → List TokenKind} {before : List TokenKind}

theorem starts_flatMap (hstart : ∀ a, Starts before (item a)) (hrest : Starts after rest)
    (as : List α) : Starts (before ++ after) (as.flatMap item ++ rest) := by
  cases as with
  | nil => exact hrest.mono (List.subset_append_right ..)
  | cons a as =>
    obtain ⟨k, ks, hk, hmem⟩ := hstart a
    rw [List.flatMap_cons, hk]
    exact starts_cons.mpr (List.mem_append_left _ hmem)

theorem flatMap_tokens_inj (hstart : ∀ a, Starts before (item a))
    (hdisjoint : before.Disjoint after)
    (hitem : ∀ a a' rest rest', Starts (before ++ after) rest → Starts (before ++ after) rest' →
      item a ++ rest = item a' ++ rest' → a = a' ∧ rest = rest')
    (hrest : Starts after rest) (hrest' : Starts after rest') {as as' : List α}
    (h : as.flatMap item ++ rest = as'.flatMap item ++ rest') : as = as' ∧ rest = rest' := by
  have hne {a : α} {ks rest : List TokenKind} (hrest : Starts after rest) :
      item a ++ ks ≠ rest := by
    rintro rfl
    obtain ⟨k, _, hk, hmem⟩ := hstart a
    rw [hk, List.cons_append, starts_cons] at hrest
    exact hdisjoint hmem hrest
  induction as generalizing as' with
  | nil =>
    cases as' with
    | nil => exact ⟨rfl, h⟩
    | cons a' as' =>
      rw [List.flatMap_cons, List.append_assoc] at h
      exact absurd h.symm (hne hrest)
  | cons a as ih =>
    cases as' with
    | nil =>
      rw [List.flatMap_cons, List.append_assoc] at h
      exact absurd h (hne hrest')
    | cons a' as' =>
      simp only [List.flatMap_cons, List.append_assoc] at h
      obtain ⟨rfl, htail⟩ := hitem a a' _ _ (starts_flatMap hstart hrest as)
        (starts_flatMap hstart hrest' as') h
      obtain ⟨rfl, hend⟩ := ih htail
      exact ⟨rfl, hend⟩

theorem Series.tokens_inj {sep : TokenKind} (hsep : sep ∉ after)
    (hitem : ∀ a a' rest rest', Starts (sep :: after) rest → Starts (sep :: after) rest' →
      item a ++ rest = item a' ++ rest' → a = a' ∧ rest = rest')
    (hrest : Starts after rest) (hrest' : Starts after rest') {s s' : Series α}
    (h : s.tokens sep item ++ rest = s'.tokens sep item ++ rest') : s = s' ∧ rest = rest' := by
  obtain ⟨a, as⟩ := s
  obtain ⟨a', as'⟩ := s'
  simp only [Series.tokens, List.append_assoc] at h
  have hstart (a : α) : Starts [sep] (sep :: item a) := starts_cons.mpr (by simp)
  obtain ⟨rfl, htail⟩ := hitem a a' _ _ (starts_flatMap hstart hrest as)
    (starts_flatMap hstart hrest' as') h
  obtain ⟨rfl, hend⟩ := flatMap_tokens_inj hstart (by simpa using hsep)
    (fun a a' rest rest' hr hr' h => hitem a a' rest rest' hr hr' (List.cons.inj h).2)
    hrest hrest' htail
  exact ⟨rfl, hend⟩

end Lists

theorem nameTokens_inj {names names' : List String}
    (h : nameTokens names ++ rest = nameTokens names' ++ rest') :
    names = names' ∧ rest = rest' := by
  have hstart (x : String) : Starts [.comma] [.comma, .ident x] := starts_cons.mpr (by simp)
  have hend {rest : List TokenKind} : Starts [.rbracket] (.rbracket :: rest) :=
    starts_cons.mpr (by simp)
  have hitem (x x' : String) (rest rest' : List TokenKind) (_ : Starts [.comma, .rbracket] rest)
      (_ : Starts [.comma, .rbracket] rest')
      (h : [.comma, .ident x] ++ rest = [.comma, .ident x'] ++ rest') : x = x' ∧ rest = rest' := by
    simpa using h
  rcases names with _ | ⟨x, xs⟩ <;> rcases names' with _ | ⟨x', xs'⟩ <;>
    simp only [nameTokens, Token.joined, List.map_nil, List.map_cons, List.flatMap_map,
      List.cons_append, List.append_assoc, List.nil_append, List.cons.injEq, true_and, reduceCtorEq,
      false_and, TokenKind.ident.injEq] at h
  · exact ⟨rfl, h⟩
  · obtain ⟨rfl, h⟩ := h
    obtain ⟨rfl, hrest⟩ := flatMap_tokens_inj hstart (by simp) hitem hend hend h
    exact ⟨rfl, (List.cons.inj hrest).2⟩

theorem Equals.token_inj {q q' : Equals} (h : q.token = q'.token) : q = q' := by
  cases q <;> cases q' <;> simp [Equals.token] at h ⊢

theorem Modulo.token_inj {o o' : Modulo} (h : o.token = o'.token) : o = o' := by
  cases o <;> cases o' <;> simp [Modulo.token] at h ⊢

theorem Comparison.token_inj {c c' : Comparison} (h : c.token = c'.token) : c = c' := by
  rcases c with _ | _ | _ | _ | (_ | _) <;> rcases c' with _ | _ | _ | _ | (_ | _) <;>
    simp [Comparison.token, Equals.token] at h ⊢

def conjunctEnds : List TokenKind := [.kwAnd, .kwOr, .rbrace]

def comparisons : List TokenKind := [.lt, .le, .gt, .ge, .eq, .eqEq]

theorem Link.starts (l : Link) : Starts comparisons l.tokens := by
  obtain ⟨c, e⟩ := l
  refine starts_cons.mpr ?_
  rcases c with _ | _ | _ | _ | _ | _ <;> simp [Comparison.token, Equals.token, comparisons]

theorem Link.tokens_inj (l l' : Link) (hrest : Starts formEnds rest)
    (hrest' : Starts formEnds rest')
    (h : l.tokens ++ rest = l'.tokens ++ rest') : l = l' ∧ rest = rest' := by
  obtain ⟨c, e⟩ := l
  obtain ⟨c', e'⟩ := l'
  simp only [Link.tokens, List.cons_append, List.cons.injEq] at h
  obtain ⟨rfl, hend⟩ := e.tokens_inj e' hrest hrest' h.2
  rw [Comparison.token_inj h.1]
  exact ⟨rfl, hend⟩

theorem conjunctEnds_subset : comparisons ++ conjunctEnds ⊆ formEnds := by decide

theorem Link.starts_flatMap (hrest : Starts conjunctEnds rest) (ls : List Link) :
    Starts formEnds (ls.flatMap Link.tokens ++ rest) :=
  (Formula.starts_flatMap Link.starts hrest ls).mono conjunctEnds_subset

theorem Modulo.starts (o : Modulo) : Starts formEnds (o.token :: rest) := by
  cases o <;> exact starts_cons.mpr (by simp [Modulo.token, formEnds])

theorem chain_ne_congruence {e e' : Form} {l : Link} {ls : List Link} {o : Modulo}
    (hrest : Starts conjunctEnds rest) :
    e.tokens ++ ((l :: ls).flatMap Link.tokens ++ rest) ≠ e'.tokens ++ o.token :: rest' := by
  intro h
  obtain ⟨rfl, htail⟩ := e.tokens_inj e' (Link.starts_flatMap hrest _) o.starts h
  obtain ⟨k, ks, hk, hmem⟩ := l.starts
  rw [List.flatMap_cons, hk] at htail
  have hkind := (List.cons.inj htail).1
  cases o <;> simp [hkind, Modulo.token, comparisons] at hmem

theorem Conjunct.tokens_inj (c c' : Conjunct) (hrest : Starts conjunctEnds rest)
    (hrest' : Starts conjunctEnds rest') (h : c.tokens ++ rest = c'.tokens ++ rest') :
    c = c' ∧ rest = rest' := by
  rcases c with _ | _ | ⟨e, l, ls⟩ | ⟨e, o, m, q, f⟩ <;>
    rcases c' with _ | _ | ⟨e', l', ls'⟩ | ⟨e', o', m', q', f'⟩ <;>
    simp only [Conjunct.tokens, List.append_assoc, List.cons_append, List.nil_append] at h
  · exact ⟨rfl, (List.cons.inj h).2⟩
  · cases (List.cons.inj h).1
  · exact absurd rfl (e'.tokens_ne h.symm).1
  · exact absurd rfl (e'.tokens_ne h.symm).1
  · cases (List.cons.inj h).1
  · exact ⟨rfl, (List.cons.inj h).2⟩
  · exact absurd rfl (e'.tokens_ne h.symm).2
  · exact absurd rfl (e'.tokens_ne h.symm).2
  · exact absurd rfl (e.tokens_ne h).1
  · exact absurd rfl (e.tokens_ne h).2
  · obtain ⟨rfl, htail⟩ := e.tokens_inj e' (Link.starts_flatMap hrest _)
      (Link.starts_flatMap hrest' _) h
    have hdisjoint : comparisons.Disjoint conjunctEnds := by simp [comparisons, conjunctEnds]
    obtain ⟨hls, hend⟩ := flatMap_tokens_inj Link.starts hdisjoint
      (fun l l' rest rest' hr hr' =>
        l.tokens_inj l' (hr.mono conjunctEnds_subset) (hr'.mono conjunctEnds_subset))
      hrest hrest' htail
    cases hls
    exact ⟨rfl, hend⟩
  · exact absurd h (chain_ne_congruence hrest)
  · exact absurd rfl (e.tokens_ne h).1
  · exact absurd rfl (e.tokens_ne h).2
  · exact absurd h.symm (chain_ne_congruence hrest')
  · obtain ⟨rfl, htail⟩ := e.tokens_inj e' o.starts o'.starts h
    simp only [List.cons.injEq, TokenKind.int.injEq] at htail
    obtain ⟨ho, rfl, hq, htail⟩ := htail
    have hsub : conjunctEnds ⊆ formEnds := by decide
    obtain ⟨rfl, hend⟩ := f.tokens_inj f' (hrest.mono hsub) (hrest'.mono hsub) htail
    rw [Modulo.token_inj ho, Equals.token_inj hq]
    exact ⟨rfl, hend⟩

theorem disjunctionTokens_inj {body body' : Series (Series Conjunct)}
    (h : disjunctionTokens body ++ [.rbrace] = disjunctionTokens body' ++ [.rbrace]) :
    body = body' := by
  have hend : Starts [.rbrace] [.rbrace] := starts_cons.mpr (by simp)
  refine (Series.tokens_inj (by simp) (fun cs cs' rest rest' hr hr' => ?_) hend hend h).1
  exact Series.tokens_inj (by simp) (fun c c' rest rest' => c.tokens_inj c') hr hr'

theorem params_tokens_inj {o o' : Option (List String)}
    (h : o.elim [] (fun names => nameTokens names ++ [.arrow]) ++ .lbrace :: rest =
      o'.elim [] (fun names => nameTokens names ++ [.arrow]) ++ .lbrace :: rest') :
    o = o' ∧ rest = rest' := by
  rcases o with _ | names <;> rcases o' with _ | names' <;>
    simp only [Option.elim_none, Option.elim_some, List.nil_append, List.append_assoc] at h
  · exact ⟨rfl, (List.cons.inj h).2⟩
  · cases (List.cons.inj h).1
  · cases (List.cons.inj h).1
  · obtain ⟨rfl, hend⟩ := nameTokens_inj h
    exact ⟨rfl, by simpa using hend⟩

theorem dims_tokens_inj {o o' : Option (List String)} (hrest : Starts [.colon, .rbrace] rest)
    (hrest' : Starts [.colon, .rbrace] rest')
    (h : o.elim [] nameTokens ++ rest = o'.elim [] nameTokens ++ rest') :
    o = o' ∧ rest = rest' := by
  rcases o with _ | names <;> rcases o' with _ | names' <;>
    simp only [Option.elim_none, Option.elim_some, List.nil_append] at h
  · exact ⟨rfl, h⟩
  · rw [h, nameTokens, List.cons_append, starts_cons] at hrest
    simp at hrest
  · rw [← h, nameTokens, List.cons_append, starts_cons] at hrest'
    simp at hrest'
  · obtain ⟨rfl, hend⟩ := nameTokens_inj h
    exact ⟨rfl, hend⟩

theorem Description.tokens_inj {d d' : Description} (h : d.tokens = d'.tokens) : d = d' := by
  obtain ⟨params, dims, body⟩ := d
  obtain ⟨params', dims', body'⟩ := d'
  have hstart (o : Option (Series (Series Conjunct))) : Starts [.colon, .rbrace]
      (o.elim [] (fun body => .colon :: disjunctionTokens body) ++ [.rbrace]) := by
    cases o <;> exact starts_cons.mpr (by simp)
  obtain ⟨rfl, htail⟩ := params_tokens_inj h
  obtain ⟨rfl, hend⟩ := dims_tokens_inj (hstart body) (hstart body') htail
  rcases body with _ | body <;> rcases body' with _ | body' <;>
    simp only [Option.elim_none, Option.elim_some, List.nil_append] at hend
  · rfl
  · cases (List.cons.inj hend).1
  · cases (List.cons.inj hend).1
  · rw [disjunctionTokens_inj (List.cons.inj hend).2]

end Unambiguity

end LoopAudit.Formula
