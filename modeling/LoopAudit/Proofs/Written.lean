import LoopAudit.Proofs.Scanning
import LoopAudit.Proofs.SetAlgebra
import Mathlib.Data.Int.ModEq

/-! The tokens that the text of a set consists of. Every coefficient is written on the side where
it is positive, so that no minus sign occurs. -/

namespace LoopAudit

open Token (IsName Spells Marks Breaks Closes joined)

variable {V : String → Prop} {e : Affine} {c : Constraint} {n m : Int}

theorem Decimal.text_of_nonneg (h : 0 ≤ n) : text n = Nat.repr n.natAbs := if_neg (not_lt.mpr h)

theorem Token.Spells.decimal (h : 0 ≤ n) (hn : Word.Fits n) : Spells (Decimal.text n) [.int n] := by
  obtain ⟨k, rfl⟩ := Int.eq_ofNat_of_zero_le h
  rw [Decimal.text_of_nonneg h, Int.natAbs_natCast]
  exact Spells.number hn

namespace Affine

variable {t : String × Int} {ts : List (String × Int)}

structure Unsigned (V : String → Prop) (e : Affine) : Prop extends Over V e where
  coefficient : ∀ t ∈ e.terms, 0 < t.2 ∧ Word.Fits t.2
  nonneg : 0 ≤ e.constant
  fits : Word.Fits e.constant

def termTokens (t : String × Int) : List TokenKind :=
  if t.2 = 1 then [.ident t.1] else [.int t.2, .ident t.1]

def tailTokens (ts : List (String × Int)) : List TokenKind :=
  ts.flatMap fun t => .plus :: termTokens t

def constantTokens (k : Int) : List TokenKind := if k = 0 then [] else [.plus, .int k]

def tokens (e : Affine) : List TokenKind :=
  match e.terms with
  | [] => [.int e.constant]
  | t :: ts => termTokens t ++ tailTokens ts ++ constantTokens e.constant

theorem termText_spells (hx : IsName t.1) (hpos : 0 < t.2) (hfits : Word.Fits t.2) :
    Spells (termText t.1 t.2) (termTokens t) := by
  obtain ⟨x, c⟩ := t
  obtain ⟨k, rfl⟩ := Int.eq_ofNat_of_zero_le hpos.le
  have hone : (k : Int) = 1 ↔ k = 1 := by omega
  simp only [termText, termTokens, Int.natAbs_natCast, hone]
  split_ifs
  · exact Spells.name hx
  · rw [Decimal.text_of_nonneg hpos.le, Int.natAbs_natCast]
    exact Spells.coefficient hfits hx

theorem breaks_tailText : Breaks (tailText ts).toList := by
  cases ts with
  | nil => exact nofun
  | cons t ts =>
    simp only [tailText, String.append_assoc]
    split_ifs
    · exact Closes.breaks_text ⟨_, _, rfl, by decide⟩
    · exact Closes.breaks_text ⟨_, _, rfl, by decide⟩

theorem tailText_spells (hnames : ∀ t ∈ ts, IsName t.1) (hts : ∀ t ∈ ts, 0 < t.2 ∧ Word.Fits t.2) :
    Spells (tailText ts) (tailTokens ts) := by
  induction ts with
  | nil => exact fun _ _ => Token.Lexes.nil
  | cons t ts ih =>
    obtain ⟨hname, hnames⟩ := List.forall_mem_cons.mp hnames
    obtain ⟨⟨hpos, hfits⟩, hts⟩ := List.forall_mem_cons.mp hts
    have htext : tailText (t :: ts) = " + " ++ (termText t.1 t.2 ++ tailText ts) := by
      simp [tailText, not_lt.mpr hpos.le, String.append_assoc]
    rw [htext]
    exact Token.marks_plus.append_spells
      ((termText_spells hname hpos hfits).append breaks_tailText (ih hnames hts))

theorem breaks_constantText : Breaks (constantText n).toList := by
  unfold constantText
  split_ifs
  · exact Closes.breaks_text ⟨_, _, rfl, by decide⟩
  · exact Closes.breaks_text ⟨_, _, rfl, by decide⟩
  · exact nofun

theorem constantText_spells (h : 0 ≤ n) (hn : Word.Fits n) :
    Spells (constantText n) (constantTokens n) := by
  rcases h.eq_or_lt with rfl | hpos
  · exact fun _ _ => Token.Lexes.nil
  · rw [constantText, if_pos hpos, constantTokens, if_neg hpos.ne']
    exact Token.marks_plus.append_spells (Spells.decimal h hn)

theorem Unsigned.spells (he : e.Unsigned V) (hV : ∀ x, V x → IsName x) :
    Spells e.text e.tokens := by
  obtain ⟨terms, k⟩ := e
  have hnames : ∀ t ∈ terms, IsName t.1 := fun t ht =>
    hV t.1 (he.within t.1 (List.mem_map_of_mem ht))
  have hcoefficients := he.coefficient
  cases terms with
  | nil => exact Spells.decimal he.nonneg he.fits
  | cons t ts =>
    obtain ⟨hname, hnames⟩ := List.forall_mem_cons.mp hnames
    obtain ⟨⟨hpos, hfits⟩, hts⟩ := List.forall_mem_cons.mp hcoefficients
    have htext : text ⟨t :: ts, k⟩ = termText t.1 t.2 ++ tailText ts ++ constantText k := by
      simp [text, not_lt.mpr hpos.le]
    rw [htext]
    have hterms := (termText_spells hname hpos hfits).append breaks_tailText
      (tailText_spells hnames hts)
    exact hterms.append breaks_constantText (constantText_spells he.nonneg he.fits)

def positivePart (e : Affine) : Affine :=
  ⟨e.terms.filter (fun t => 0 < t.2), max e.constant 0⟩

def negativePart (e : Affine) : Affine :=
  ⟨(e.terms.filter (fun t => ¬ 0 < t.2)).map (fun t => (t.1, -t.2)), max (-e.constant) 0⟩

theorem eval_parts {ρ : String → Int} :
    e.positivePart.eval ρ - e.negativePart.eval ρ = e.eval ρ := by
  obtain ⟨ts, k⟩ := e
  simp only [positivePart, negativePart]
  induction ts with
  | nil =>
    change max k 0 - max (-k) 0 = k
    omega
  | cons t ts ih =>
    obtain ⟨x, c⟩ := t
    rw [eval_cons, ← ih]
    by_cases hpos : 0 < c
    · rw [List.filter_cons_of_pos (by simpa using hpos),
        List.filter_cons_of_neg (by simpa using hpos), eval_cons]
      ring
    · rw [List.filter_cons_of_neg (by simpa using hpos),
        List.filter_cons_of_pos (by simpa using hpos), List.map_cons, eval_cons]
      ring

def Moderate (e : Affine) : Prop :=
  (∀ t ∈ e.terms, Word.Fits t.2 ∧ t.2 ≠ Word.least) ∧
    Word.Fits e.constant ∧ e.constant ≠ Word.least

theorem fits_neg (hn : Word.Fits n) (hne : n ≠ Word.least) : Word.Fits (-n) := by
  unfold Word.Fits Word.least Word.greatest at *
  omega

theorem positivePart_unsigned (he : e.Over V) (hm : e.Moderate) : e.positivePart.Unsigned V where
  canonical := by
    refine ⟨?_, fun t ht => he.canonical.2 t (List.mem_filter.mp ht).1⟩
    exact he.canonical.1.sublist (List.filter_sublist.map Prod.fst)
  within x hx := by
    obtain ⟨t, ht, rfl⟩ := List.mem_map.mp hx
    exact he.within t.1 (List.mem_map_of_mem (List.mem_filter.mp ht).1)
  coefficient t ht := by
    obtain ⟨ht, hpos⟩ := List.mem_filter.mp ht
    exact ⟨of_decide_eq_true hpos, (hm.1 t ht).1⟩
  nonneg := le_max_right _ _
  fits := by
    obtain ⟨-, hfits, -⟩ := hm
    change Word.Fits (max e.constant 0)
    unfold Word.Fits Word.least Word.greatest at *
    omega

theorem negativePart_unsigned (he : e.Over V) (hm : e.Moderate) : e.negativePart.Unsigned V where
  canonical := by
    have hvars : e.negativePart.terms.map Prod.fst =
        (e.terms.filter fun t => ¬ 0 < t.2).map Prod.fst := by
      simp [negativePart]
    refine ⟨?_, fun t ht => ?_⟩
    · rw [hvars]
      exact he.canonical.1.sublist (List.filter_sublist.map Prod.fst)
    · obtain ⟨u, hu, rfl⟩ := List.mem_map.mp ht
      exact neg_ne_zero.mpr (he.canonical.2 u (List.mem_filter.mp hu).1)
  within x hx := by
    obtain ⟨t, ht, rfl⟩ := List.mem_map.mp hx
    obtain ⟨u, hu, rfl⟩ := List.mem_map.mp ht
    exact he.within u.1 (List.mem_map_of_mem (List.mem_filter.mp hu).1)
  coefficient t ht := by
    obtain ⟨u, hu, rfl⟩ := List.mem_map.mp ht
    obtain ⟨hu, hnonpos⟩ := List.mem_filter.mp hu
    have hne := he.canonical.2 u hu
    obtain ⟨hfits, hleast⟩ := hm.1 u hu
    refine ⟨?_, fits_neg hfits hleast⟩
    have hle := not_lt.mp (of_decide_eq_true hnonpos)
    exact neg_pos.mpr (lt_of_le_of_ne hle hne)
  nonneg := le_max_right _ _
  fits := by
    obtain ⟨-, hfits, hleast⟩ := hm
    change Word.Fits (max (-e.constant) 0)
    unfold Word.Fits Word.least Word.greatest at *
    omega

end Affine

namespace Constraint

structure Moderate (c : Constraint) : Prop where
  form : c.form.Moderate
  modulus : ∀ m, c.relation = .mod m → Word.Fits m

def residueForm (e : Affine) : Affine := ⟨e.terms, 0⟩

def shownTokens (e : Affine) : List TokenKind :=
  match e.terms with
  | [(x, 1)] => [.ident x]
  | _ => .lparen :: (residueForm e).tokens ++ [.rparen]

def tokens (c : Constraint) : List TokenKind :=
  match c.relation with
  | .mod m => shownTokens c.form ++ [.kwMod, .int m, .eq, .int (residue c.form m)]
  | .eq => c.form.positivePart.tokens ++ .eq :: c.form.negativePart.tokens
  | .ge => c.form.positivePart.tokens ++ .ge :: c.form.negativePart.tokens

theorem residue_spec (hc : c.IsNormal V) (hm : c.relation = .mod m) (hfits : Word.Fits m) :
    0 ≤ residue c.form m ∧ residue c.form m < m ∧ (-residue c.form m) % m = c.form.constant := by
  obtain ⟨hone, hnonneg, hlt⟩ := hc.mod_range hm
  have hpos : 0 < m := zero_lt_one.trans hone
  have hneg : Word.Fits (-c.form.constant) := by
    unfold Word.Fits Word.least Word.greatest at *
    omega
  have hresidue : residue c.form m = -c.form.constant % m := by simp [residue, Word.checked, hneg]
  rw [hresidue]
  refine ⟨Int.emod_nonneg _ hpos.ne', Int.emod_lt_of_pos _ hpos, ?_⟩
  have hcancel : -(-c.form.constant % m) % m = - -c.form.constant % m :=
    (Int.mod_modEq (-c.form.constant) m).neg
  rw [hcancel, neg_neg, Int.emod_eq_of_lt hnonneg hlt]

theorem fits_residue (hc : c.IsNormal V) (hm : c.relation = .mod m) (hfits : Word.Fits m) :
    Word.Fits (residue c.form m) := by
  obtain ⟨hnonneg, hlt, -⟩ := residue_spec hc hm hfits
  unfold Word.Fits Word.least Word.greatest at *
  omega

theorem residueForm_unsigned (hc : c.IsNormal V) (hm : c.relation = .mod m)
    (hmoderate : c.Moderate) : (residueForm c.form).Unsigned V where
  canonical := hc.form.canonical
  within := hc.form.within
  coefficient t ht := by
    obtain ⟨hone, hreduced⟩ := hc.reduced_eq hm
    have ht' : t ∈ (c.form.reduced m).terms := by rwa [hreduced]
    exact ⟨(mem_reduced_range (zero_lt_one.trans hone) ht').1, (hmoderate.form.1 t ht).1⟩
  nonneg := le_rfl
  fits := by
    change Word.Fits 0
    decide

theorem comparisonText_eq (e : Affine) (op : String) : comparisonText e op =
    e.positivePart.text ++ (" " ++ op ++ " " ++ e.negativePart.text) := by
  simp [comparisonText, Affine.positivePart, Affine.negativePart, String.append_assoc]

theorem comparisonText_spells {op : String} {kind : TokenKind} (he : e.Over V)
    (hV : ∀ x, V x → IsName x) (hm : e.Moderate) (hop : Spells op [kind]) :
    Spells (comparisonText e op) (e.positivePart.tokens ++ kind :: e.negativePart.tokens) := by
  rw [comparisonText_eq]
  have hleft := (Affine.positivePart_unsigned he hm).spells hV
  have hright := (Affine.negativePart_unsigned he hm).spells hV
  have hbreaks : Breaks (" " ++ op ++ " " ++ e.negativePart.text).toList := by
    rw [String.append_assoc, String.append_assoc]
    exact Token.closes_blank.breaks_text
  exact hleft.append hbreaks ((Marks.spaced hop rfl).append_spells hright)

theorem shown_cases (e : Affine) (m : Int) :
    (∃ x, x ∈ e.vars ∧ shownTokens e = [.ident x] ∧
      modText e m = x ++ (" mod " ++ (Decimal.text m ++ (" = " ++ Decimal.text (residue e m))))) ∨
    (shownTokens e = .lparen :: (residueForm e).tokens ++ [.rparen] ∧
      modText e m = "(" ++ ((residueForm e).text ++ ")") ++
        (" mod " ++ (Decimal.text m ++ (" = " ++ Decimal.text (residue e m))))) := by
  by_cases hbare : ∃ x, e.terms = [(x, 1)]
  · obtain ⟨x, hterms⟩ := hbare
    refine .inl ⟨x, by simp [Affine.vars, hterms], by simp only [shownTokens, hterms], ?_⟩
    simp only [modText, hterms, String.append_assoc]
  · refine .inr ⟨?_, ?_⟩
    · unfold shownTokens
      split
      · next x hterms => exact absurd ⟨x, hterms⟩ hbare
      · rfl
    · simp only [modText, residueForm, String.append_assoc]
      split
      · next x hterms => exact absurd ⟨x, hterms⟩ hbare
      · simp only [String.append_assoc]

theorem modText_spells (hc : c.IsNormal V) (hV : ∀ x, V x → IsName x) (hm : c.relation = .mod m)
    (hmoderate : c.Moderate) :
    Spells (modText c.form m)
      (shownTokens c.form ++ [.kwMod, .int m, .eq, .int (residue c.form m)]) := by
  have hfits := hmoderate.modulus m hm
  obtain ⟨hnonneg, -⟩ := residue_spec hc hm hfits
  have hpos := hc.modulus_pos m hm
  have hresidue := fits_residue hc hm hfits
  have hunsigned := residueForm_unsigned hc hm hmoderate
  have hmod : Spells (" mod " ++ (Decimal.text m ++ (" = " ++ Decimal.text (residue c.form m))))
      [.kwMod, .int m, .eq, .int (residue c.form m)] := by
    have hequals : Marks " = " [.eq] := Marks.spaced Token.spells_eq rfl
    have hword : Marks " mod " [.kwMod] := Marks.spaced Token.spells_mod rfl
    have hbreaks : Breaks (" = " ++ Decimal.text (residue c.form m)).toList :=
      Closes.breaks_text ⟨_, _, rfl, by decide⟩
    exact hword.append_spells ((Spells.decimal hpos.le hfits).append hbreaks
      (hequals.append_spells (Spells.decimal hnonneg hresidue)))
  have hbreaks : Breaks
      (" mod " ++ (Decimal.text m ++ (" = " ++ Decimal.text (residue c.form m)))).toList :=
    Closes.breaks_text ⟨_, _, rfl, by decide⟩
  rcases shown_cases c.form m with ⟨x, hx, htokens, htext⟩ | ⟨htokens, htext⟩
  · rw [htokens, htext]
    exact (Spells.name (hV x (hunsigned.within x hx))).append hbreaks hmod
  · rw [htokens, htext]
    have hclose : Breaks ")".toList := Closes.breaks ⟨_, _, rfl, by decide⟩
    have hparens : Spells ("(" ++ ((residueForm c.form).text ++ ")"))
        (.lparen :: (residueForm c.form).tokens ++ [.rparen]) :=
      Token.marks_lparen.append_spells
        ((hunsigned.spells hV).append hclose Token.marks_rparen.spells)
    exact hparens.append hbreaks hmod

theorem text_spells (hc : c.IsNormal V) (hV : ∀ x, V x → IsName x) (hmoderate : c.Moderate) :
    Spells c.text c.tokens := by
  unfold text tokens
  cases hr : c.relation with
  | eq => exact comparisonText_spells hc.form hV hmoderate.form Token.spells_eq
  | ge => exact comparisonText_spells hc.form hV hmoderate.form Token.spells_ge
  | mod m => exact modText_spells hc hV hr hmoderate

end Constraint

namespace IntegerSet

variable {s : IntegerSet} {b : Conjunction} {names : List String}

def nameListTokens (names : List String) : List TokenKind :=
  .lbracket :: joined .comma (names.map fun x => [.ident x]) ++ [.rbracket]

def paramsTokens (space : Space) : List TokenKind :=
  if space.params.isEmpty then [] else nameListTokens space.params ++ [.arrow]

def dimsTokens (space : Space) : List TokenKind :=
  if space.dims.isEmpty then [] else nameListTokens space.dims

def pieceTokens (b : Conjunction) : List TokenKind :=
  if b.constraints.isEmpty then [.kwTrue] else joined .kwAnd (b.constraints.map Constraint.tokens)

def bodyTokens (s : IntegerSet) : List TokenKind :=
  match s.pieces with
  | [] => [.colon, .kwFalse]
  | [b] => if b.constraints.isEmpty then [] else .colon :: pieceTokens b
  | bs => .colon :: joined .kwOr (bs.map pieceTokens)

def tokens (s : IntegerSet) : List TokenKind :=
  paramsTokens s.space ++ .lbrace :: dimsTokens s.space ++ bodyTokens s ++ [.rbrace]

theorem nameList_marks {a : String} {kinds : List TokenKind} (hnames : ∀ x ∈ names, IsName x)
    (hcloses : Closes a) (ha : Marks a (.rbracket :: kinds)) :
    Marks ("[" ++ ", ".intercalate names ++ a) (nameListTokens names ++ kinds) := by
  have hlist : Spells (", ".intercalate (names.map id))
      (joined .comma (names.map fun x => [.ident x])) :=
    Spells.intercalate Token.marks_comma ⟨_, _, rfl, by decide⟩ fun x hx =>
      Spells.name (hnames x hx)
  rw [List.map_id] at hlist
  simpa [nameListTokens] using (Token.marks_lbracket.append_spells hlist).append_marks hcloses ha

theorem params_marks (hnames : ∀ x ∈ s.space.params, IsName x) :
    Marks s.space.paramsText (paramsTokens s.space) := by
  unfold Space.paramsText paramsTokens
  split_ifs
  · exact fun _ => Token.Lexes.nil
  · exact nameList_marks hnames ⟨_, _, rfl, by decide⟩ Token.marks_rbracket_arrow

theorem dims_marks (hnames : ∀ x ∈ s.space.dims, IsName x) :
    Marks (if s.space.dims.isEmpty then "" else "[" ++ ", ".intercalate s.space.dims ++ "] ")
      (dimsTokens s.space) := by
  unfold dimsTokens
  split_ifs
  · exact fun _ => Token.Lexes.nil
  · simpa using nameList_marks hnames ⟨_, _, rfl, by decide⟩ Token.marks_rbracket

structure Writable (s : IntegerSet) : Prop where
  name : ∀ x ∈ s.space.names, IsName x
  number : ∀ b ∈ s.pieces, ∀ c ∈ b.constraints, c.Moderate

theorem piece_spells (hs : s.WellFormed) (hw : s.Writable) (hb : b ∈ s.pieces) :
    Spells (pieceText b) (pieceTokens b) := by
  unfold pieceText pieceTokens
  split_ifs
  · exact Token.spells_true
  · have hand : Marks " and " [.kwAnd] := Marks.spaced Token.spells_and rfl
    refine Spells.intercalate hand ⟨_, _, rfl, by decide⟩ fun c hc => ?_
    obtain ⟨hwf, hspace⟩ := hs.pieces b hb
    exact Constraint.text_spells (hwf.constraint hc) (fun x hx => hw.name x (hspace ▸ hx))
      (hw.number b hb c hc)

theorem body_marks (hs : s.WellFormed) (hw : s.Writable) : Marks s.bodyText (bodyTokens s) := by
  have hpieces : ∀ b ∈ s.pieces, Spells (pieceText b) (pieceTokens b) :=
    fun b hb => piece_spells hs hw hb
  have hframe {a : String} {kinds : List TokenKind} (h : Spells a kinds) :
      Marks (": " ++ a ++ " ") (.colon :: kinds) := by
    simpa using (Token.marks_colon.append_spells h).append_marks Token.closes_blank Marks.blank
  unfold bodyText bodyTokens
  cases hlist : s.pieces with
  | nil =>
    have hfalse : Marks (": " ++ "false" ++ " ") [.colon, .kwFalse] := hframe Token.spells_false
    exact hfalse
  | cons b bs =>
    rw [hlist] at hpieces
    cases bs with
    | nil =>
      dsimp only
      split_ifs
      · exact fun _ => Token.Lexes.nil
      · exact hframe (hpieces b (List.mem_singleton.mpr rfl))
    | cons b' bs =>
      have hor : Marks " or " [.kwOr] := Marks.spaced Token.spells_or rfl
      exact hframe (Spells.intercalate hor ⟨_, _, rfl, by decide⟩ hpieces)

theorem scan_text (hs : s.WellFormed) (hw : s.Writable) :
    ∃ ts, Token.scan s.text = .ok ts ∧ ts.map Token.kind = s.tokens ++ [.eof] := by
  have hparams := params_marks (s := s) fun x hx => hw.name x (List.mem_append_left _ hx)
  have hdims := dims_marks (s := s) fun x hx => hw.name x (List.mem_append_right _ hx)
  have htext : Marks s.text s.tokens := by
    unfold text tokens
    simpa using (((hparams.append Token.marks_lbrace).append hdims).append
      (body_marks hs hw)).append Token.marks_rbrace
  exact htext.spells.scan

end IntegerSet

end LoopAudit
