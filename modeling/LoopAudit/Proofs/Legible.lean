import LoopAudit.Expr.Reader
import LoopAudit.Proofs.Lexemes
import LoopAudit.Proofs.Recognition

/-! The expressions that come from text. A minus sign in front of a number belongs to the number, so
that a number is negated only where a term is subtracted. -/

namespace LoopAudit

open Fallible Formula Reading

open Token (IsName)

namespace Expr

variable {e x y : Expr} {xs ys : List Expr} {kinds kinds' : List TokenKind}

def unsigned : Expr → Expr
  | neg x => x
  | x => x

inductive Legible : Expr → Prop
  | int {n : Int} (hfits : Word.Fits n) (hleast : n ≠ Word.least) : Legible (.int n)
  | var {x : String} (hx : IsName x) : Legible (.var x)
  | sum {x : Expr} {ys : List Expr} (hx : Legible x) (hne : ys ≠ [])
      (hys : ∀ y ∈ ys, Legible y.unsigned) : Legible (.sum (x :: ys))
  | product {x : Expr} {ys : List Expr} (hx : Legible x) (hne : ys ≠ [])
      (hys : ∀ y ∈ ys, Legible y) : Legible (.product (x :: ys))
  | neg {x : Expr} (hx : Legible x) (hint : ∀ n, x ≠ .int n) : Legible (.neg x)
  | floorDiv {a b : Expr} (ha : Legible a) (hb : Legible b) : Legible (.floorDiv a b)
  | remainder {a b : Expr} (ha : Legible a) (hb : Legible b) : Legible (.remainder a b)
  | subscript {a : String} {index : List Expr} (ha : IsName a) (hne : index ≠ [])
      (hindex : ∀ y ∈ index, Legible y) : Legible (.subscript a index)
  | call {f : String} {args : List Expr} (hf : IsName f) (hargs : ∀ y ∈ args, Legible y) :
      Legible (.call f args)

theorem Legible.unsigned (h : Legible e) : Legible e.unsigned := by
  cases h with
  | neg hx => exact hx
  | int hfits hleast => exact .int hfits hleast
  | var hx => exact .var hx
  | sum hx hne hys => exact .sum hx hne hys
  | product hx hne hys => exact .product hx hne hys
  | floorDiv ha hb => exact .floorDiv ha hb
  | remainder ha hb => exact .remainder ha hb
  | subscript ha hne hindex => exact .subscript ha hne hindex
  | call hf hargs => exact .call hf hargs

namespace Reader

theorem opposite_legible (h : Legible e) : Legible (opposite e) := by
  cases h with
  | int hfits hleast =>
    rw [opposite, if_neg hleast]
    unfold Word.Fits Word.least Word.greatest at *
    refine .int ?_ ?_
    · unfold Word.Fits Word.least Word.greatest
      omega
    · unfold Word.least
      omega
  | var hx => exact .neg (.var hx) nofun
  | sum hx hne hys => exact .neg (.sum hx hne hys) nofun
  | product hx hne hys => exact .neg (.product hx hne hys) nofun
  | neg hx hint => exact .neg (.neg hx hint) nofun
  | floorDiv ha hb => exact .neg (.floorDiv ha hb) nofun
  | remainder ha hb => exact .neg (.remainder ha hb) nofun
  | subscript ha hne hindex => exact .neg (.subscript ha hne hindex) nofun
  | call hf hargs => exact .neg (.call hf hargs) nofun

theorem gather_product_legible (hne : xs ≠ []) (hxs : ∀ x ∈ xs, Legible x) :
    Legible (gather .product xs) := by
  rcases xs with _ | ⟨x, _ | ⟨y, ys⟩⟩
  · exact absurd rfl hne
  · exact hxs x (List.mem_singleton.mpr rfl)
  · have ⟨hx, hys⟩ := List.forall_mem_cons.mp hxs
    exact .product hx (List.cons_ne_nil _ _) hys

theorem gather_sum_legible (hx : Legible x) (hys : ∀ y ∈ ys, Legible y.unsigned) :
    Legible (gather .sum (x :: ys)) := by
  rcases ys with _ | ⟨y, ys⟩
  · exact hx
  · exact .sum hx (List.cons_ne_nil _ _) hys

def Lexical (kinds : List TokenKind) : Prop :=
  (∀ x, .ident x ∈ kinds → IsName x) ∧ ∀ n, .int n ∈ kinds → 0 ≤ n ∧ Word.Fits n

theorem Lexical.mono (h : Lexical kinds) (hsub : kinds' ⊆ kinds) : Lexical kinds' :=
  ⟨fun x hx => h.1 x (hsub hx), fun n hn => h.2 n (hsub hn)⟩

theorem Lexical.item {α : Type} {sep : TokenKind} {item : α → List TokenKind} {s : Series α}
    (h : Lexical (s.tokens sep item)) {a : α} (ha : a ∈ s.toList) : Lexical (item a) := by
  apply h.mono
  intro k hk
  rcases List.mem_cons.mp ha with rfl | ha
  · exact List.mem_append_left _ hk
  · have htail : k ∈ s.rest.flatMap fun a => sep :: item a :=
      List.mem_flatMap.mpr ⟨a, ha, List.mem_cons_of_mem _ hk⟩
    exact List.mem_append_right _ htail

abbrev Spelled {α : Type} (P : α → Prop) (r : Reader α) : Prop :=
  Recognizes r id fun kinds a => Lexical kinds → P a

section Readers

variable {inner : Reader Expr}

theorem bracketed_spelled {close : TokenKind} {what : String} (hinner : Spelled Legible inner) :
    Spelled (fun p => ∀ e ∈ p.1, Legible e) (bracketed inner close what) := by
  rintro ts ⟨es, span⟩ rest h
  unfold bracketed at h
  dsimp only at h
  split_ifs at h with hempty
  · have ⟨⟨span', us⟩, hclose, hresult⟩ := bind_eq_ok.mp (show
      (expect close what ts >>= fun p => .ok (([], p.1), p.2)) = .ok ((es, span), rest) from h)
    obtain ⟨⟨rfl, rfl⟩, rfl⟩ : ([] = es ∧ span' = span) ∧ us = rest := by simpa using hresult
    refine ⟨[close], ?_, fun _ => nofun⟩
    rw [expect_eq_ok.mp hclose]
    rfl
  · have ⟨⟨es', us⟩, hes, htail⟩ := bind_eq_ok.mp h
    have ⟨⟨span', vs⟩, hclose, hresult⟩ := bind_eq_ok.mp htail
    obtain ⟨⟨rfl, rfl⟩, rfl⟩ : (es' = es ∧ span' = span) ∧ vs = rest := by simpa using hresult
    have ⟨s, hall, hts⟩ := collect_recognizes hinner hes
    have hus : us = ⟨close, span'⟩ :: vs := expect_eq_ok.mp hclose
    refine ⟨s.tokens .comma id ++ [close], ?_, fun hlexical e he => ?_⟩
    · rw [hts, hus]
      simp
    · have hseries : Lexical (s.tokens .comma id) := hlexical.mono (List.subset_append_left ..)
      have ⟨kinds, hkinds, hlegible⟩ := exists_of_forall₂ hall he
      exact hlegible (hseries.item hkinds)

theorem named_spelled {name : String} (hinner : Spelled Legible inner) :
    Recognizes (named inner name) id fun kinds e => Lexical (.ident name :: kinds) → Legible e := by
  intro ts e rest h
  have hname {kinds : List TokenKind} (hlexical : Lexical (.ident name :: kinds)) : IsName name :=
    hlexical.1 name (List.mem_cons_self ..)
  have hsub {k : TokenKind} {kinds : List TokenKind} : kinds ⊆ .ident name :: k :: kinds :=
    fun _ h => List.mem_cons_of_mem _ (List.mem_cons_of_mem _ h)
  unfold named at h
  rcases hbracket : eat? .lbracket ts with _ | ⟨span, us⟩
  · rcases hparen : eat? .lparen ts with _ | ⟨span, us⟩
    · simp only [hbracket, hparen] at h
      cases h
      exact ⟨[], rfl, fun hlexical => .var (hname hlexical)⟩
    · simp only [hbracket, hparen] at h
      have ⟨⟨⟨args, span'⟩, vs⟩, hargs, hresult⟩ := bind_eq_ok.mp h
      obtain ⟨rfl, rfl⟩ : call name args = e ∧ vs = rest := by simpa using hresult
      have ⟨kinds, hkinds, hlegible⟩ := bracketed_spelled hinner us (args, span') vs hargs
      refine ⟨.lparen :: kinds, ?_, fun hlexical => ?_⟩
      · rw [eat?_eq_some.mp hparen]
        simp [hkinds]
      · exact .call (hname hlexical) (hlegible (hlexical.mono hsub))
  · simp only [hbracket] at h
    have ⟨⟨⟨index, span'⟩, vs⟩, hindex, hresult⟩ := bind_eq_ok.mp h
    dsimp only at hresult
    split_ifs at hresult with hempty
    cases hresult
    have ⟨kinds, hkinds, hlegible⟩ := bracketed_spelled hinner us (index, span') rest hindex
    refine ⟨.lbracket :: kinds, ?_, fun hlexical => ?_⟩
    · rw [eat?_eq_some.mp hbracket]
      simp [hkinds]
    · have hne : index ≠ [] := fun heq => hempty (List.isEmpty_iff.mpr heq)
      exact .subscript (hname hlexical) hne (hlegible (hlexical.mono hsub))

theorem unary_spelled (hinner : Spelled Legible inner) : Spelled Legible (unary inner) := by
  intro ts
  induction ts with
  | nil => nofun
  | cons t ts ih =>
    intro e rest h
    unfold unary at h
    split at h
    · next heq =>
      obtain ⟨rfl, rfl⟩ := List.cons.inj heq
      have ⟨⟨x, us⟩, hx, hresult⟩ := bind_eq_ok.mp h
      cases hresult
      have ⟨kinds, hkinds, hlegible⟩ := ih x rest hx
      refine ⟨.minus :: kinds, by simp [hkinds], fun hlexical => ?_⟩
      exact opposite_legible (hlegible (hlexical.mono (List.subset_cons_self ..)))
    · next n _ _ heq =>
      obtain ⟨rfl, rfl⟩ := List.cons.inj heq
      cases h
      refine ⟨[.int n], rfl, fun hlexical => ?_⟩
      have ⟨hnonneg, hfits⟩ := hlexical.2 n (List.mem_singleton.mpr rfl)
      refine .int hfits ?_
      unfold Word.least
      omega
    · next x _ _ heq =>
      obtain ⟨rfl, rfl⟩ := List.cons.inj heq
      have ⟨kinds, hkinds, hlegible⟩ := named_spelled hinner ts e rest h
      exact ⟨.ident x :: kinds, by simp [hkinds], hlegible⟩
    · next heq =>
      obtain ⟨rfl, rfl⟩ := List.cons.inj heq
      have ⟨⟨x, us⟩, hx, htail⟩ := bind_eq_ok.mp h
      have ⟨⟨span, vs⟩, hclose, hresult⟩ := bind_eq_ok.mp htail
      cases hresult
      have ⟨kinds, hkinds, hlegible⟩ := hinner _ _ us hx
      rw [expect_eq_ok.mp hclose] at hkinds
      refine ⟨.lparen :: (kinds ++ [.rparen]), by simp [hkinds], fun hlexical => hlegible ?_⟩
      apply hlexical.mono
      intro k hk
      simp [show k ∈ kinds from hk]
    · cases h

theorem loop_spelled {α : Type} {P : α → Prop} {a : α}
    {step : α → List Token → Except SyntaxError (Option (α × List Token))}
    (hstep : ∀ a ts b rest, step a ts = .ok (some (b, rest)) → ∃ kinds,
      ts.map Token.kind = kinds ++ rest.map Token.kind ∧ (Lexical kinds → P a → P b)) :
    Recognizes (loop step a) id fun kinds b => Lexical kinds → P a → P b := by
  intro ts b rest h
  refine loop_induction (M := fun a ts => ∃ kinds,
    ts.map Token.kind = id kinds ++ rest.map Token.kind ∧ (Lexical kinds → P a → P b))
    ⟨[], rfl, fun _ ha => ha⟩ ?_ h
  rintro a ts a' ts' hone ⟨kinds, hkinds, htail⟩
  have ⟨kinds', hkinds', hfirst⟩ := hstep a ts a' ts' hone
  refine ⟨kinds' ++ kinds, by simp [hkinds', hkinds], fun hlexical ha => ?_⟩
  exact htail (hlexical.mono (List.subset_append_right ..))
    (hfirst (hlexical.mono (List.subset_append_left ..)) ha)

theorem operand_spelled {r : Reader Expr} (hr : Spelled Legible r) (kind : TokenKind) (span : Span)
    {ts us : List Token} {e : Expr} (h : r ts = .ok (e, us)) :
    ∃ kinds, (⟨kind, span⟩ :: ts : List Token).map Token.kind = kinds ++ us.map Token.kind ∧
      (Lexical kinds → Legible e) := by
  obtain ⟨kinds, hkinds, hlegible⟩ := hr ts e us h
  refine ⟨kind :: kinds, by simp [hkinds], fun hlexical => hlegible ?_⟩
  exact hlexical.mono (List.subset_cons_self ..)

theorem productStep_spelled (hinner : Spelled Legible inner) {fs gs : List Expr}
    {ts rest : List Token} (h : productStep inner fs ts = .ok (some (gs, rest))) :
    ∃ kinds, ts.map Token.kind = kinds ++ rest.map Token.kind ∧
      (Lexical kinds → (fs ≠ [] ∧ ∀ f ∈ fs, Legible f) → gs ≠ [] ∧ ∀ g ∈ gs, Legible g) := by
  unfold productStep at h
  split at h
  · obtain ⟨⟨e, us⟩, he, hresult⟩ := bind_eq_ok.mp h
    obtain ⟨rfl, rfl⟩ : fs ++ [e] = gs ∧ us = rest := by simpa using hresult
    obtain ⟨kinds, hkinds, hlegible⟩ := operand_spelled (unary_spelled hinner) .star _ he
    refine ⟨kinds, hkinds, fun hlexical hfs => ⟨by simp, ?_⟩⟩
    exact List.forall_mem_append.mpr ⟨hfs.2, List.forall_mem_singleton.mpr (hlegible hlexical)⟩
  · obtain ⟨⟨e, us⟩, he, hresult⟩ := bind_eq_ok.mp h
    obtain ⟨rfl, rfl⟩ : [.floorDiv (gather .product fs) e] = gs ∧ us = rest := by
      simpa using hresult
    obtain ⟨kinds, hkinds, hlegible⟩ := operand_spelled (unary_spelled hinner) .slashSlash _ he
    refine ⟨kinds, hkinds, fun hlexical hfs => ⟨by simp, List.forall_mem_singleton.mpr ?_⟩⟩
    exact .floorDiv (gather_product_legible hfs.1 hfs.2) (hlegible hlexical)
  · obtain ⟨⟨e, us⟩, he, hresult⟩ := bind_eq_ok.mp h
    obtain ⟨rfl, rfl⟩ : [.remainder (gather .product fs) e] = gs ∧ us = rest := by
      simpa using hresult
    obtain ⟨kinds, hkinds, hlegible⟩ := operand_spelled (unary_spelled hinner) .percent _ he
    refine ⟨kinds, hkinds, fun hlexical hfs => ⟨by simp, List.forall_mem_singleton.mpr ?_⟩⟩
    exact .remainder (gather_product_legible hfs.1 hfs.2) (hlegible hlexical)
  · cases h
  · cases h

/-- A first item and the loop after it, wrapped together. -/
theorem gather_spelled {r : Reader Expr} {wrap : List Expr → Expr} {P : List Expr → Prop}
    {step : List Expr → List Token → Except SyntaxError (Option (List Expr × List Token))}
    (hr : Spelled Legible r)
    (hstep : ∀ xs ts ys rest, step xs ts = .ok (some (ys, rest)) → ∃ kinds,
      ts.map Token.kind = kinds ++ rest.map Token.kind ∧ (Lexical kinds → P xs → P ys))
    (hfirst : ∀ e, Legible e → P [e]) (hall : ∀ xs, P xs → Legible (gather wrap xs)) :
    Spelled Legible fun ts => r ts >>= fun first =>
      loop step [first.1] first.2 >>= fun items => .ok (gather wrap items.1, items.2) := by
  intro ts e rest h
  obtain ⟨⟨first, us⟩, hread, hloop⟩ := bind_eq_ok.mp h
  obtain ⟨⟨items, vs⟩, hitems, hresult⟩ := bind_eq_ok.mp hloop
  obtain ⟨rfl, rfl⟩ : gather wrap items = e ∧ vs = rest := by simpa using hresult
  obtain ⟨kinds, hkinds, hlegible⟩ := hr ts first us hread
  obtain ⟨kinds', hkinds', hkeeps⟩ := loop_spelled hstep us items vs hitems
  refine ⟨kinds ++ kinds', ?_, fun hlexical => hall items ?_⟩
  · rw [hkinds, hkinds']
    simp
  · have hone := hlegible (hlexical.mono (List.subset_append_left ..))
    exact hkeeps (hlexical.mono (List.subset_append_right ..)) (hfirst first hone)

theorem product_spelled (hinner : Spelled Legible inner) : Spelled Legible (product inner) :=
  gather_spelled (P := fun fs => fs ≠ [] ∧ ∀ f ∈ fs, Legible f) (unary_spelled hinner)
    (fun _ _ _ _ => productStep_spelled hinner)
    (fun _ he => ⟨by simp, List.forall_mem_singleton.mpr he⟩)
    fun _ hfs => gather_product_legible hfs.1 hfs.2

def LegibleTerms (terms : List Expr) : Prop :=
  ∃ x ys, terms = x :: ys ∧ Legible x ∧ ∀ y ∈ ys, Legible y.unsigned

theorem LegibleTerms.push (h : LegibleTerms xs) (hy : Legible y.unsigned) :
    LegibleTerms (xs ++ [y]) := by
  have ⟨x, ys, hxs, hx, hys⟩ := h
  refine ⟨x, ys ++ [y], by rw [hxs, List.cons_append], hx, ?_⟩
  exact List.forall_mem_append.mpr ⟨hys, List.forall_mem_singleton.mpr hy⟩

theorem sumStep_spelled (hinner : Spelled Legible inner) {xs ys : List Expr}
    {ts rest : List Token} (h : sumStep inner xs ts = .ok (some (ys, rest))) :
    ∃ kinds, ts.map Token.kind = kinds ++ rest.map Token.kind ∧
      (Lexical kinds → LegibleTerms xs → LegibleTerms ys) := by
  unfold sumStep at h
  split at h
  · obtain ⟨⟨e, us⟩, he, hresult⟩ := bind_eq_ok.mp h
    obtain ⟨rfl, rfl⟩ : xs ++ [e] = ys ∧ us = rest := by simpa using hresult
    obtain ⟨kinds, hkinds, hlegible⟩ := operand_spelled (product_spelled hinner) .plus _ he
    exact ⟨kinds, hkinds, fun hlexical hxs => hxs.push (hlegible hlexical).unsigned⟩
  · obtain ⟨⟨e, us⟩, he, hresult⟩ := bind_eq_ok.mp h
    obtain ⟨rfl, rfl⟩ : xs ++ [.neg e] = ys ∧ us = rest := by simpa using hresult
    obtain ⟨kinds, hkinds, hlegible⟩ := operand_spelled (product_spelled hinner) .minus _ he
    exact ⟨kinds, hkinds, fun hlexical hxs => hxs.push (hlegible hlexical)⟩
  · cases h

theorem sum_spelled (hinner : Spelled Legible inner) : Spelled Legible (sum inner) := by
  refine gather_spelled (P := LegibleTerms) (product_spelled hinner)
    (fun _ _ _ _ => sumStep_spelled hinner) (fun e he => ⟨e, [], rfl, he, by simp⟩) ?_
  rintro _ ⟨x, ys, rfl, hx, hys⟩
  exact gather_sum_legible hx hys

theorem expr_spelled : Spelled Legible expr := by
  suffices h : ∀ depth, Spelled Legible (exprWithin depth) from fun ts => h _ ts
  intro depth
  induction depth with
  | zero => exact fun ts e rest h => by cases h
  | succ depth ih => exact sum_spelled ih

end Readers

end Reader

theorem parse_legible {src : String} (h : parse src = .ok e) : Legible e := by
  have ⟨ts, hts, htail⟩ := bind_eq_ok.mp h
  have ⟨⟨e', rest⟩, he, hend⟩ := bind_eq_ok.mp htail
  have ⟨_, _, hresult⟩ := bind_eq_ok.mp hend
  obtain rfl : e' = e := by simpa using hresult
  have ⟨kinds, hkinds, hsegments, hfits⟩ := Token.scanFrom_segments hts
  have ⟨kinds', hkinds', hlegible⟩ := Reader.expr_spelled ts e' rest he
  have hlexical : Reader.Lexical (ts.map Token.kind) := by
    rw [hkinds]
    refine ⟨fun x hx => ?_, fun n hn => ?_⟩
    · rcases List.mem_append.mp hx with hx | hx
      · exact hsegments.isName hx
      · simp at hx
    · rcases List.mem_append.mp hn with hn | hn
      · exact ⟨hsegments.nonneg hn, hfits n hn⟩
      · simp at hn
  apply hlegible
  rw [hkinds'] at hlexical
  exact hlexical.mono (List.subset_append_left ..)

end Expr

end LoopAudit
