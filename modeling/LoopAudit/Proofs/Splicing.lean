import LoopAudit.Expr.Evaluation
import LoopAudit.Proofs.Legible
import LoopAudit.Proofs.Lowering
import LoopAudit.Proofs.Parts

/-! Sums that start with a sum, and products that start with a product. Their text shows no
parentheses around the first item, so that its own items are spliced in when the text is read. The
text, the value and the affine form stay the same. -/

namespace LoopAudit

namespace Affine

variable {e f g : Affine} {x : String} {c k : Int}

theorem InWord.const (hk : Word.Fits k) : (const k).InWord :=
  ⟨fun _ ht => absurd ht List.not_mem_nil, hk⟩

theorem InWord.addTerm (he : e.InWord) (h : e.addTerm x c = .ok g) : g.InWord := by
  rw [addTerm_eq] at h
  split_ifs at h
  · cases h
    exact he
  · have ⟨total, htotal, h⟩ := Fallible.bind_eq_ok.mp h
    cases h
    refine ⟨fun t ht => ?_, he.2⟩
    rcases mem_setTerm ht with ⟨rfl, -⟩ | ht
    · have ⟨hfits, heq⟩ := exact_eq_ok_iff.mp htotal
      exact heq ▸ hfits
    · exact he.1 t ht

theorem InWord.add (he : e.InWord) (h : e.add f = .ok g) : g.InWord := by
  have ⟨s, hs, h⟩ := Fallible.bind_eq_ok.mp h
  have hsum : s.InWord :=
    Fallible.foldlM_invariant (fun _ _ _ _ hb hstep => InWord.addTerm hb hstep) he hs
  rw [addConstant_eq] at h
  have ⟨total, htotal, h⟩ := Fallible.bind_eq_ok.mp h
  have ⟨hfits, heq⟩ := exact_eq_ok_iff.mp htotal
  cases h
  exact ⟨hsum.1, heq ▸ hfits⟩

theorem inWord_of_scale (h : e.scale k = .ok g) : g.InWord := by
  unfold scale at h
  split_ifs at h
  · cases h
    exact .const (by decide)
  · have ⟨ts, hts, h⟩ := Fallible.bind_eq_ok.mp h
    have ⟨total, htotal, h⟩ := Fallible.bind_eq_ok.mp h
    have ⟨hfits, heq⟩ := exact_eq_ok_iff.mp htotal
    cases h
    refine ⟨fun t ht => ?_, heq ▸ hfits⟩
    have ⟨u, _, hu⟩ := Fallible.exists_of_mapM_mem hts ht
    have ⟨c, hc, h⟩ := Fallible.bind_eq_ok.mp hu
    have ⟨hfits, heq⟩ := exact_eq_ok_iff.mp hc
    cases h
    exact heq ▸ hfits

theorem zero_add_of_inWord (he : e.Canonical) (hfits : e.InWord) : zero.add e = .ok e := by
  have hconstant : Word.Fits (zero.constant + e.constant) := by
    rw [show zero.constant = 0 from rfl, zero_add]
    exact hfits.2
  have ⟨g, hg⟩ := add_answers (e := zero) he (fun _ _ => List.not_mem_nil) hfits.1 hconstant
  have ⟨hover, heval⟩ := add_spec (V := fun _ => True) (.const 0) ⟨he, fun _ _ => trivial⟩ hg
  rw [hg, hover.canonical.eq_of_eval he fun ρ => ?_]
  rw [heval, eval_const, zero_add]

theorem scale_one_of_inWord (hfits : e.InWord) : e.scale 1 = .ok e := by
  obtain ⟨ts, k⟩ := e
  have hterms : ∀ t ∈ ts, Word.Fits (t.2 * 1) := by simpa using hfits.1
  have hconstant : Word.Fits (k * 1) := by simpa using hfits.2
  rw [scale_answers one_ne_zero hterms hconstant]
  simp

end Affine

namespace Expr

variable {e x : Expr} {xs ys zs : List Expr} {values : Assignment}

def terms : Expr → List Expr
  | sum (x :: xs) => x :: xs
  | e => [e]

def factors : Expr → List Expr
  | product (x :: xs) => x :: xs
  | e => [e]

mutual

/-- The expression with the terms of a sum's first term, and the factors of a product's first
factor, in place of that item. -/
def spliced : Expr → Expr
  | int n => int n
  | var x => var x
  | sum [] => sum []
  | sum (x :: xs) => sum ((spliced x).terms ++ splicedAll xs)
  | product [] => product []
  | product (x :: xs) => product ((spliced x).factors ++ splicedAll xs)
  | neg x => neg (spliced x)
  | floorDiv a b => floorDiv (spliced a) (spliced b)
  | remainder a b => remainder (spliced a) (spliced b)
  | subscript a index => subscript a (splicedAll index)
  | call f args => call f (splicedAll args)

def splicedAll : List Expr → List Expr
  | [] => []
  | x :: xs => spliced x :: splicedAll xs

end

theorem splicedAll_eq_map : ∀ xs : List Expr, splicedAll xs = xs.map spliced
  | [] => rfl
  | x :: xs => by rw [splicedAll, List.map_cons, splicedAll_eq_map xs]

/-- What `wrap` holds has its parts for items, and anything else is an item by itself. -/
structure Unwraps (wrap : List Expr → Expr) (items : Expr → List Expr) : Prop where
  parts (xs : List Expr) : (wrap xs).parts = xs
  wrapped (x : Expr) (xs : List Expr) : items (wrap (x :: xs)) = x :: xs
  single (e : Expr) : (∃ x xs, e = wrap (x :: xs)) ∨ items e = [e]

theorem terms_unwraps : Unwraps sum terms where
  parts _ := rfl
  wrapped _ _ := rfl
  single e := by
    unfold terms
    split
    · exact .inl ⟨_, _, rfl⟩
    · exact .inr rfl

theorem factors_unwraps : Unwraps product factors where
  parts _ := rfl
  wrapped _ _ := rfl
  single e := by
    unfold factors
    split
    · exact .inl ⟨_, _, rfl⟩
    · exact .inr rfl

namespace Unwraps

variable {wrap : List Expr → Expr} {items : Expr → List Expr} {β : Type}

theorem ne_nil (h : Unwraps wrap items) (e : Expr) : items e ≠ [] := by
  rcases h.single e with ⟨x, xs, rfl⟩ | he
  · rw [h.wrapped]
    exact List.cons_ne_nil x xs
  · rw [he]
    exact List.cons_ne_nil e []

theorem items_wrap (h : Unwraps wrap items) (hxs : xs ≠ []) : items (wrap xs) = xs := by
  obtain ⟨x, xs, rfl⟩ := List.exists_cons_of_ne_nil hxs
  exact h.wrapped x xs

theorem flatMap_items {f : Expr → List β} (h : Unwraps wrap items)
    (hf : ∀ xs, f (wrap xs) = xs.flatMap f) (x : Expr) : (items x).flatMap f = f x := by
  rcases h.single x with ⟨y, ys, rfl⟩ | hx
  · rw [h.wrapped, hf]
  · rw [hx, List.flatMap_singleton]

theorem foldlM_items {m : Type → Type} [Monad m] [LawfulMonad m] {step : β → Expr → m β} {b : β}
    (h : Unwraps wrap items) (hstep : ∀ xs, xs.foldlM step b = step b (wrap xs)) (x : Expr) :
    (items x).foldlM step b = step b x := by
  rcases h.single x with ⟨y, ys, rfl⟩ | hx
  · rw [h.wrapped, hstep]
  · simp [hx]

end Unwraps

section Text

theorem enclosed_one {bare : String} : enclosed 1 e bare = bare := by
  have hprecedence : 1 ≤ e.precedence := by
    unfold precedence
    split <;> (try split_ifs) <;> omega
  exact if_neg (by omega)

theorem sumTail_append (xs ys : List Expr) : sumTail (xs ++ ys) = sumTail xs ++ sumTail ys := by
  induction xs with
  | nil => simp [sumTail]
  | cons x xs ih => cases x <;> simp [sumTail, ih, String.append_assoc]

theorem productTail_append (xs ys : List Expr) :
    productTail (xs ++ ys) = productTail xs ++ productTail ys := by
  induction xs with
  | nil => simp [productTail]
  | cons x xs ih => simp [productTail, ih, String.append_assoc]

theorem text_sum_terms : (sum (x.terms ++ xs)).text = (sum (x :: xs)).text := by
  rcases terms_unwraps.single x with ⟨y, ys, rfl⟩ | hx
  · change (sum (y :: (ys ++ xs))).text = _
    simp only [text, enclosed_one, sumTail_append, String.append_assoc]
  · rw [hx, List.singleton_append]

theorem text_product_factors : (product (x.factors ++ xs)).text = (product (x :: xs)).text := by
  rcases factors_unwraps.single x with ⟨y, ys, rfl⟩ | hx
  · change (product (y :: (ys ++ xs))).text = _
    have hbare {bare : String} : enclosed 2 (product (y :: ys)) bare = bare := rfl
    simp only [text, hbare, productTail_append, String.append_assoc]
  · rw [hx, List.singleton_append]

theorem precedence_spliced (e : Expr) : e.spliced.precedence = e.precedence := by
  rcases e with _ | _ | (_ | _) | (_ | _) | _ | _ | _ | _ | _ <;> rfl

theorem enclosed_spliced {least : Nat} {bare : String} :
    enclosed least e.spliced bare = enclosed least e bare := by
  rw [enclosed, precedence_spliced, enclosed]

def sign : Expr → String
  | neg _ => " - "
  | _ => " + "

theorem sumTail_cons : sumTail (x :: xs) =
    x.sign ++ enclosed 2 x.unsigned x.unsigned.text ++ sumTail xs := by
  cases x <;> rfl

theorem sign_spliced (e : Expr) : e.spliced.sign = e.sign := by
  rcases e with _ | _ | (_ | _) | (_ | _) | _ | _ | _ | _ | _ <;> rfl

theorem unsigned_spliced (e : Expr) : e.spliced.unsigned = e.unsigned.spliced := by
  rcases e with _ | _ | (_ | _) | (_ | _) | _ | _ | _ | _ | _ <;> rfl

theorem sumTail_spliced (h : ∀ x ∈ xs, x.unsigned.spliced.text = x.unsigned.text) :
    sumTail (splicedAll xs) = sumTail xs := by
  induction xs with
  | nil => rfl
  | cons x xs ih =>
    have ⟨hx, hxs⟩ := List.forall_mem_cons.mp h
    rw [splicedAll, sumTail_cons, sumTail_cons, sign_spliced, unsigned_spliced, enclosed_spliced,
      hx, ih hxs]

theorem productTail_spliced (h : ∀ x ∈ xs, x.spliced.text = x.text) :
    productTail (splicedAll xs) = productTail xs := by
  induction xs with
  | nil => rfl
  | cons x xs ih =>
    have ⟨hx, hxs⟩ := List.forall_mem_cons.mp h
    rw [splicedAll, productTail, productTail, enclosed_spliced, hx, ih hxs]

theorem listText_spliced (h : ∀ x ∈ xs, x.spliced.text = x.text) :
    listText (splicedAll xs) = listText xs := by
  induction xs with
  | nil => rfl
  | cons x xs ih =>
    have ⟨hx, hxs⟩ := List.forall_mem_cons.mp h
    cases xs with
    | nil => exact hx
    | cons y ys =>
      change x.spliced.text ++ ", " ++ listText (splicedAll (y :: ys)) = _
      rw [hx, ih hxs]
      rfl

theorem text_spliced (e : Expr) : e.spliced.text = e.text := by
  -- A negated term is written as a difference, which asks for the text of what is negated.
  suffices h : e.spliced.text = e.text ∧ e.unsigned.spliced.text = e.unsigned.text from h.1
  induction e using induction_on_parts with
  | hstep e ih =>
    have htext : e.spliced.text = e.text := by
      match e with
      | int _ | var _ | sum [] | product [] => rfl
      | sum (x :: xs) =>
        have ⟨hx, hxs⟩ := List.forall_mem_cons.mp ih
        rw [spliced, text_sum_terms, text, text, enclosed_one, enclosed_one, hx.1,
          sumTail_spliced fun y hy => (hxs y hy).2]
      | product (x :: xs) =>
        have ⟨hx, hxs⟩ := List.forall_mem_cons.mp ih
        rw [spliced, text_product_factors, text, text, enclosed_spliced, hx.1,
          productTail_spliced fun y hy => (hxs y hy).1]
      | neg x =>
        have hx := ih x (by simp [parts])
        rw [spliced, text, text, enclosed_spliced, hx.1]
      | floorDiv a b =>
        have ha := ih a (by simp [parts])
        have hb := ih b (by simp [parts])
        rw [spliced, text, text, enclosed_spliced, enclosed_spliced, ha.1, hb.1]
      | remainder a b =>
        have ha := ih a (by simp [parts])
        have hb := ih b (by simp [parts])
        rw [spliced, text, text, enclosed_spliced, enclosed_spliced, ha.1, hb.1]
      | subscript a index =>
        rw [spliced, text, text, @listText_spliced index fun y hy => (ih y hy).1]
      | call f args =>
        rw [spliced, text, text, @listText_spliced args fun y hy => (ih y hy).1]
    refine ⟨htext, ?_⟩
    cases e with
    | neg x => exact (ih x (by simp [parts])).1
    | _ => exact htext

end Text

section Listings

variable {β : Type} {f : Expr → List β}

/-- What is listed part by part, with nothing for a sum or a product itself, stays the same. -/
theorem listing_spliced (own : Expr → List β) (hf : ∀ e, f e = own e ++ e.parts.flatMap f)
    (hsum : ∀ xs, own (sum xs) = []) (hproduct : ∀ xs, own (product xs) = [])
    (hown : ∀ e, own e.spliced = own e) (e : Expr) : f e.spliced = f e := by
  have hterms : ∀ x : Expr, x.terms.flatMap f = f x :=
    terms_unwraps.flatMap_items fun xs => by rw [hf (sum xs), hsum, List.nil_append, parts]
  have hfactors : ∀ x : Expr, x.factors.flatMap f = f x :=
    factors_unwraps.flatMap_items fun xs => by
      rw [hf (product xs), hproduct, List.nil_append, parts]
  induction e using induction_on_parts with
  | hstep e ih =>
    have hall {xs : List Expr} (hxs : ∀ x ∈ xs, f x.spliced = f x) :
        (splicedAll xs).flatMap f = xs.flatMap f := by
      rw [splicedAll_eq_map, List.flatMap_map]
      exact List.flatMap_congr hxs
    rw [hf, hf e, hown]
    congr 1
    cases e with
    | int _ => rfl
    | var _ => rfl
    | sum xs =>
      cases xs with
      | nil => rfl
      | cons x xs =>
        obtain ⟨hx, hxs⟩ := List.forall_mem_cons.mp ih
        change (x.spliced.terms ++ splicedAll xs).flatMap f = (x :: xs).flatMap f
        rw [List.flatMap_append, hterms, hx, hall hxs, List.flatMap_cons]
    | product xs =>
      cases xs with
      | nil => rfl
      | cons x xs =>
        obtain ⟨hx, hxs⟩ := List.forall_mem_cons.mp ih
        change (x.spliced.factors ++ splicedAll xs).flatMap f = (x :: xs).flatMap f
        rw [List.flatMap_append, hfactors, hx, hall hxs, List.flatMap_cons]
    | neg x => exact hall ih
    | floorDiv a b => exact hall ih
    | remainder a b => exact hall ih
    | subscript a index => exact @hall index ih
    | call g args => exact @hall args ih

theorem readsAll_eq_flatMap : ∀ xs : List Expr, readsAll xs = xs.flatMap reads
  | [] => rfl
  | x :: xs => by rw [readsAll, List.flatMap_cons, readsAll_eq_flatMap xs]

theorem subscriptsAll_eq_flatMap : ∀ xs : List Expr, subscriptsAll xs = xs.flatMap subscripts
  | [] => rfl
  | x :: xs => by rw [subscriptsAll, List.flatMap_cons, subscriptsAll_eq_flatMap xs]

def ownReads : Expr → List String
  | var x => [x]
  | subscript a _ => [a]
  | _ => []

theorem reads_spliced (e : Expr) : e.spliced.reads = e.reads := by
  refine listing_spliced ownReads (fun e => ?_) (fun _ => rfl) (fun _ => rfl)
    (fun e => ?_) e
  · cases e <;> simp [ownReads, reads, parts, readsAll_eq_flatMap]
  · rcases e with _ | _ | (_ | _) | (_ | _) | _ | _ | _ | _ | _ <;> rfl

theorem dependencies_spliced (e : Expr) : e.spliced.dependencies = e.dependencies := by
  rw [dependencies, dependencies, reads_spliced]

def subscriptTexts (e : Expr) : List (String × List String) :=
  e.subscripts.map fun s => (s.1, s.2.map text)

def ownSubscriptTexts : Expr → List (String × List String)
  | subscript a index => [(a, index.map text)]
  | _ => []

theorem subscriptTexts_spliced (e : Expr) : e.spliced.subscriptTexts = e.subscriptTexts := by
  refine listing_spliced ownSubscriptTexts (fun e => ?_) (fun _ => rfl) (fun _ => rfl)
    (fun e => ?_) e
  · have hflat (xs : List Expr) : (subscriptsAll xs).map (fun s => (s.1, s.2.map text)) =
        xs.flatMap subscriptTexts := by
      rw [subscriptsAll_eq_flatMap, List.map_flatMap]
      rfl
    cases e <;> simp [ownSubscriptTexts, subscriptTexts, subscripts, parts, hflat]
  · rcases e with _ | _ | (_ | _) | (_ | _) | _ | _ | _ | ⟨a, index⟩ | _
    case subscript =>
      change [(a, (splicedAll index).map text)] = [(a, index.map text)]
      rw [splicedAll_eq_map, List.map_map]
      simp [text_spliced]
    all_goals rfl

end Listings

section Folds

variable {β : Type} {m : Type → Type} [Monad m] [LawfulMonad m] {step : β → Expr → m β} {b : β}

theorem foldlM_spliced (hys : ys.foldlM step b = step b x.spliced)
    (h : ∀ y ∈ x :: xs, ∀ b, step b y.spliced = step b y) :
    (ys ++ splicedAll xs).foldlM step b = (x :: xs).foldlM step b := by
  have ⟨hx, hxs⟩ := List.forall_mem_cons.mp h
  have htail (b : β) : (splicedAll xs).foldlM step b = xs.foldlM step b := by
    clear hx h
    induction xs generalizing b with
    | nil => rfl
    | cons y ys ih =>
      have ⟨hy, hys⟩ := List.forall_mem_cons.mp hxs
      simp only [splicedAll, List.foldlM_cons, hy, ih hys]
  simp only [List.foldlM_append, List.foldlM_cons, hys, hx, htail]

end Folds

section Values

def accumulate (op : Int → Int → Int) (values : Assignment) (acc : Int) (x : Expr) :
    Except EvalError Int := do
  fitting (op acc (← evaluate values x))

theorem evaluateSum_eq_foldlM (acc : Int) (xs : List Expr) :
    evaluateSum values acc xs = xs.foldlM (accumulate (· + ·) values) acc := by
  induction xs generalizing acc with
  | nil => rfl
  | cons x xs ih => simp [evaluateSum, accumulate, ih]

theorem evaluateProduct_eq_foldlM (acc : Int) (xs : List Expr) :
    evaluateProduct values acc xs = xs.foldlM (accumulate (· * ·) values) acc := by
  induction xs generalizing acc with
  | nil => rfl
  | cons x xs ih => simp [evaluateProduct, accumulate, ih]

theorem accumulate_unit {op : Int → Int → Int} {unit : Int} (hunit : ∀ v, op unit v = v)
    (hword : Word.Fits unit) (he : evaluate values e = xs.foldlM (accumulate op values) unit) :
    xs.foldlM (accumulate op values) unit = accumulate op values unit e := by
  rw [accumulate, he]
  cases h : xs.foldlM (accumulate op values) unit with
  | error _ => rfl
  | ok v =>
    have hfits : Word.Fits v := by
      refine Fallible.foldlM_invariant (fun _ _ _ _ _ hstep => ?_) hword h
      obtain ⟨_, _, hv⟩ := Fallible.bind_eq_ok.mp hstep
      obtain ⟨hfits, heq⟩ := fitting_eq_ok.mp hv
      exact heq ▸ hfits
    exact (fitting_eq_ok.mpr ⟨by rwa [hunit], hunit v⟩).symm

theorem accumulate_sum (xs : List Expr) : xs.foldlM (accumulate (· + ·) values) 0 =
    accumulate (· + ·) values 0 (sum xs) :=
  accumulate_unit zero_add (by decide) (by rw [evaluate, evaluateSum_eq_foldlM])

theorem accumulate_product (xs : List Expr) : xs.foldlM (accumulate (· * ·) values) 1 =
    accumulate (· * ·) values 1 (product xs) :=
  accumulate_unit one_mul (by decide) (by rw [evaluate, evaluateProduct_eq_foldlM])

theorem evaluate_spliced (e : Expr) : evaluate values e.spliced = evaluate values e := by
  induction e using induction_on_parts with
  | hstep e ih =>
    match e with
    | int _ | var _ | sum [] | product [] => rfl
    | sum (x :: xs) =>
      rw [spliced, evaluate, evaluate, evaluateSum_eq_foldlM, evaluateSum_eq_foldlM]
      refine foldlM_spliced (terms_unwraps.foldlM_items accumulate_sum _) fun y hy b => ?_
      rw [accumulate, accumulate, ih y hy]
    | product (x :: xs) =>
      rw [spliced, evaluate, evaluate, evaluateProduct_eq_foldlM, evaluateProduct_eq_foldlM]
      refine foldlM_spliced (factors_unwraps.foldlM_items accumulate_product _) fun y hy b => ?_
      rw [accumulate, accumulate, ih y hy]
    | neg x => rw [spliced, evaluate, evaluate, ih x (by simp [parts])]
    | floorDiv a b =>
      rw [spliced, evaluate, evaluate, ih a (by simp [parts]), ih b (by simp [parts])]
    | remainder a b =>
      rw [spliced, evaluate, evaluate, ih a (by simp [parts]), ih b (by simp [parts])]
    | subscript a index =>
      have htext := text_spliced (subscript a index)
      rw [spliced] at htext ⊢
      rw [evaluate, evaluate, htext]
    | call f args =>
      have htext := text_spliced (call f args)
      rw [spliced] at htext ⊢
      rw [evaluate, evaluate, htext]

end Values

section Forms

open LoopAudit.Affine (InWord)

theorem foldlM_some_invariant {α β : Type} {step : β → α → Option β} {I : β → Prop}
    (hstep : ∀ b a b', I b → step b a = some b' → I b') {l : List α} {b b' : β} (hb : I b)
    (h : l.foldlM step b = some b') : I b' := by
  induction l generalizing b with
  | nil =>
    cases h
    exact hb
  | cons a l ih =>
    rw [List.foldlM_cons] at h
    have ⟨c, hc, h⟩ := Option.bind_eq_some_iff.mp h
    exact ih (hstep b a c hb hc) h

def combined (combine : Affine → Affine → Option Affine) (acc : Affine) (x : Expr) :
    Option Affine := do
  combine acc (← linearize x)

def addForm (f g : Affine) : Option Affine := (f.add g).toOption

def mulForm (f g : Affine) : Option Affine := (affineProduct? f g).toOption.join

theorem linearizeSum_eq_foldlM (acc : Affine) (xs : List Expr) :
    linearizeSum acc xs = xs.foldlM (combined addForm) acc := by
  induction xs generalizing acc with
  | nil => rfl
  | cons x xs ih => simp [linearizeSum, combined, addForm, ih, Option.bind_assoc]

theorem linearizeProduct_eq_foldlM (acc : Affine) (xs : List Expr) :
    linearizeProduct acc xs = xs.foldlM (combined mulForm) acc := by
  induction xs generalizing acc with
  | nil => rfl
  | cons x xs ih => simp [linearizeProduct, combined, mulForm, ih, Option.bind_assoc]

theorem combined_unit {combine : Affine → Affine → Option Affine} {unit : Affine}
    (hword : unit.InWord)
    (hcombine : ∀ f g f', f.InWord → combine f g = some f' → f'.InWord)
    (hunit : ∀ f : Affine, f.Canonical → f.InWord → combine unit f = some f)
    (he : linearize e = xs.foldlM (combined combine) unit) :
    xs.foldlM (combined combine) unit = combined combine unit e := by
  rw [combined, he]
  cases h : xs.foldlM (combined combine) unit with
  | none => rfl
  | some f =>
    have hfits : f.InWord := by
      refine foldlM_some_invariant (fun b x b' hb hstep => ?_) hword h
      obtain ⟨g, _, hg⟩ := Option.bind_eq_some_iff.mp hstep
      exact hcombine b g b' hb hg
    exact (hunit f (linearize_canonical (he.trans h)) hfits).symm

theorem combined_sum (xs : List Expr) :
    xs.foldlM (combined addForm) .zero = combined addForm .zero (sum xs) := by
  refine combined_unit (.const (by decide)) (fun f g f' hf hadd => ?_) (fun f hf hword => ?_) ?_
  · exact hf.add (toOption_eq_some.mp hadd)
  · exact toOption_eq_some.mpr (Affine.zero_add_of_inWord hf hword)
  · rw [linearize, linearizeSum_eq_foldlM]

theorem inWord_of_affineProduct {f g f' : Affine} (h : affineProduct? f g = .ok (some f')) :
    f'.InWord := by
  unfold affineProduct? at h
  split_ifs at h
  · obtain ⟨_, hscale, heq⟩ := Fallible.map_eq_ok.mp h
    cases heq
    exact Affine.inWord_of_scale hscale
  · obtain ⟨_, hscale, heq⟩ := Fallible.map_eq_ok.mp h
    cases heq
    exact Affine.inWord_of_scale hscale
  · cases h

theorem combined_product (xs : List Expr) :
    xs.foldlM (combined mulForm) (.const 1) = combined mulForm (.const 1) (product xs) := by
  refine combined_unit (.const (by decide)) (fun f g f' _ hmul => ?_) (fun f _ hword => ?_) ?_
  · exact inWord_of_affineProduct (toOption_eq_some.mp (Option.join_eq_some_iff.mp hmul))
  · change (some <$> f.scale 1).toOption.join = some f
    rw [Affine.scale_one_of_inWord hword]
    rfl
  · rw [linearize, linearizeProduct_eq_foldlM]

theorem linearize_spliced (e : Expr) : e.spliced.linearize = e.linearize := by
  induction e using induction_on_parts with
  | hstep e ih =>
    match e with
    | int _ | var _ | sum [] | product [] => rfl
    | sum (x :: xs) =>
      rw [spliced, linearize, linearize, linearizeSum_eq_foldlM, linearizeSum_eq_foldlM]
      refine foldlM_spliced (terms_unwraps.foldlM_items combined_sum _) fun y hy b => ?_
      rw [combined, combined, ih y hy]
    | product (x :: xs) =>
      rw [spliced, linearize, linearize, linearizeProduct_eq_foldlM, linearizeProduct_eq_foldlM]
      refine foldlM_spliced (factors_unwraps.foldlM_items combined_product _) fun y hy b => ?_
      rw [combined, combined, ih y hy]
    | neg x => rw [spliced, linearize, linearize, ih x (by simp [parts])]
    | floorDiv _ _ | remainder _ _ | subscript _ _ | call _ _ => rw [spliced, linearize, linearize]

end Forms

section Flat

def Flat (e : Expr) : Prop :=
  ∀ ys zs, ¬ (sum (sum ys :: zs)).Occurs e ∧ ¬ (product (product ys :: zs)).Occurs e

theorem Flat.part (h : Flat e) (hx : x ∈ e.parts) : Flat x :=
  fun ys zs => ⟨fun hs => (h ys zs).1 (.inside hx hs), fun hp => (h ys zs).2 (.inside hx hp)⟩

theorem flat_of_parts (hsum : ∀ ys zs, e ≠ sum (sum ys :: zs))
    (hproduct : ∀ ys zs, e ≠ product (product ys :: zs)) (h : ∀ x ∈ e.parts, Flat x) : Flat e := by
  intro ys zs
  constructor
  · intro hs
    cases hs with
    | here => exact hsum ys zs rfl
    | inside hx hs => exact (h _ hx ys zs).1 hs
  · intro hp
    cases hp with
    | here => exact hproduct ys zs rfl
    | inside hx hp => exact (h _ hx ys zs).2 hp

theorem flat_of_operator (hsum : ∀ xs, e ≠ sum xs) (hproduct : ∀ xs, e ≠ product xs)
    (h : ∀ x ∈ e.parts, Flat x) : Flat e :=
  flat_of_parts (fun _ _ => hsum _) (fun _ _ => hproduct _) h

theorem splicedAll_of_flat (h : ∀ x ∈ xs, x.spliced = x) : splicedAll xs = xs := by
  rw [splicedAll_eq_map, List.map_congr_left h]
  exact List.map_id xs

theorem spliced_of_flat (h : Flat e) : e.spliced = e := by
  induction e using induction_on_parts with
  | hstep e ih =>
    have hall : ∀ x ∈ e.parts, x.spliced = x := fun x hx => ih x hx (h.part hx)
    match e with
    | int _ | var _ | sum [] | product [] => rfl
    | sum (x :: xs) =>
      have ⟨hx, hxs⟩ := List.forall_mem_cons.mp hall
      have hterms : x.terms = [x] := by
        refine (terms_unwraps.single x).resolve_left ?_
        rintro ⟨y, ys, rfl⟩
        exact (h (y :: ys) xs).1 .here
      rw [spliced, hx, hterms, splicedAll_of_flat hxs, List.singleton_append]
    | product (x :: xs) =>
      have ⟨hx, hxs⟩ := List.forall_mem_cons.mp hall
      have hfactors : x.factors = [x] := by
        refine (factors_unwraps.single x).resolve_left ?_
        rintro ⟨y, ys, rfl⟩
        exact (h (y :: ys) xs).2 .here
      rw [spliced, hx, hfactors, splicedAll_of_flat hxs, List.singleton_append]
    | neg x => rw [spliced, hall x (by simp [parts])]
    | floorDiv a b => rw [spliced, hall a (by simp [parts]), hall b (by simp [parts])]
    | remainder a b => rw [spliced, hall a (by simp [parts]), hall b (by simp [parts])]
    | subscript a index => rw [spliced, @splicedAll_of_flat index hall]
    | call f args => rw [spliced, @splicedAll_of_flat args hall]

theorem flat_sum (hxs : ∀ x ∈ xs, Flat x) (hhead : ∀ ys, xs.head? ≠ some (sum ys)) :
    Flat (sum xs) := by
  refine flat_of_parts (fun ys zs heq => ?_) (fun _ _ => nofun) hxs
  cases heq
  exact hhead ys rfl

theorem flat_product (hxs : ∀ x ∈ xs, Flat x) (hhead : ∀ ys, xs.head? ≠ some (product ys)) :
    Flat (product xs) := by
  refine flat_of_parts (fun _ _ => nofun) (fun ys zs heq => ?_) hxs
  cases heq
  exact hhead ys rfl

theorem Flat.spliced_all (h : ∀ x ∈ xs, Flat x.spliced) : ∀ x ∈ splicedAll xs, Flat x := by
  rw [splicedAll_eq_map]
  exact List.forall_mem_map.mpr h

theorem Unwraps.flat_items {wrap : List Expr → Expr} {items : Expr → List Expr}
    (hu : Unwraps wrap items) (hnested : ∀ ys zs, ¬ Flat (wrap (wrap ys :: zs)))
    (hwrap : ∀ xs, (∀ x ∈ xs, Flat x) → (∀ ys, xs.head? ≠ some (wrap ys)) → Flat (wrap xs))
    (h : Flat x) (hne : x ≠ wrap []) (hxs : ∀ y ∈ xs, Flat y) : Flat (wrap (items x ++ xs)) := by
  by_cases hx : ∃ y ys, x = wrap (y :: ys)
  · obtain ⟨y, ys, rfl⟩ := hx
    have hys : ∀ z ∈ y :: ys, Flat z := fun z hz => h.part (by rwa [hu.parts])
    rw [hu.wrapped]
    refine hwrap _ (List.forall_mem_append.mpr ⟨hys, hxs⟩) fun us heq => ?_
    obtain rfl : y = wrap us := by simpa using heq
    exact hnested us ys h
  · rw [(hu.single x).resolve_left hx]
    refine hwrap _ (List.forall_mem_cons.mpr ⟨h, hxs⟩) fun us heq => ?_
    have hwrapped : x = wrap us := by simpa using heq
    cases us with
    | nil => exact hne hwrapped
    | cons y ys => exact hx ⟨y, ys, hwrapped⟩

theorem Flat.sum_spliced (h : Flat x.spliced) (hne : x.spliced ≠ .sum [])
    (hxs : ∀ y ∈ xs, Flat y.spliced) : Flat (spliced (.sum (x :: xs))) :=
  terms_unwraps.flat_items (fun ys zs hflat => (hflat ys zs).1 .here) (fun _ => flat_sum) h hne
    (Flat.spliced_all hxs)

theorem Flat.product_spliced (h : Flat x.spliced) (hne : x.spliced ≠ .product [])
    (hxs : ∀ y ∈ xs, Flat y.spliced) : Flat (spliced (.product (x :: xs))) :=
  factors_unwraps.flat_items (fun ys zs hflat => (hflat ys zs).2 .here) (fun _ => flat_product) h
    hne (Flat.spliced_all hxs)

theorem Legible.spliced_ne_nil (h : Legible e) : e.spliced ≠ .sum [] ∧ e.spliced ≠ .product [] := by
  cases h <;> simp [spliced, terms_unwraps.ne_nil, factors_unwraps.ne_nil]

theorem flat_of_unsigned (h : Flat e.unsigned.spliced) : Flat e.spliced := by
  cases e with
  | neg x =>
    have hx : Flat x.spliced := h
    exact flat_of_operator (by simp [spliced]) (by simp [spliced])
      (by simpa [parts, spliced] using hx)
  | _ => exact h

theorem flat_spliced (h : Legible e) : Flat e.spliced := by
  induction h with
  | int | var =>
    exact flat_of_operator (by simp [spliced]) (by simp [spliced]) (by simp [parts, spliced])
  | sum hx _ _ ihx ihys =>
    exact ihx.sum_spliced hx.spliced_ne_nil.1 fun y hy => flat_of_unsigned (ihys y hy)
  | product hx _ _ ihx ihys => exact ihx.product_spliced hx.spliced_ne_nil.2 ihys
  | neg _ _ ih =>
    exact flat_of_operator (by simp [spliced]) (by simp [spliced])
      (by simpa [parts, spliced] using ih)
  | floorDiv _ _ iha ihb =>
    exact flat_of_operator (by simp [spliced]) (by simp [spliced])
      (by simpa [parts, spliced] using ⟨iha, ihb⟩)
  | remainder _ _ iha ihb =>
    exact flat_of_operator (by simp [spliced]) (by simp [spliced])
      (by simpa [parts, spliced] using ⟨iha, ihb⟩)
  | subscript _ _ _ ih =>
    exact flat_of_operator (by simp [spliced]) (by simp [spliced])
      (by simpa [parts, spliced, splicedAll_eq_map] using ih)
  | call _ _ ih =>
    exact flat_of_operator (by simp [spliced]) (by simp [spliced])
      (by simpa [parts, spliced, splicedAll_eq_map] using ih)

end Flat

end Expr

end LoopAudit
