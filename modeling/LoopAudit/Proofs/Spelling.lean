import LoopAudit.Proofs.Splicing
import LoopAudit.Proofs.Written

/-! The tokens that the text of an expression consists of. -/

namespace LoopAudit.Expr

open Token (IsName Lexes Spells Marks Breaks Closes joined)

variable {e x : Expr} {xs ys : List Expr} {kinds : List TokenKind} {a b : String} {least : Nat}

def enclosedTokens (least : Nat) (e : Expr) (bare : List TokenKind) : List TokenKind :=
  if e.precedence < least then .lparen :: bare ++ [.rparen] else bare

mutual

def tokens : Expr → List TokenKind
  | int n => if n < 0 then [.minus, .int (-n)] else [.int n]
  | var x => [.ident x]
  | sum [] => []
  | sum (x :: xs) => tokens x ++ sumTokens xs
  | product [] => []
  | product (x :: xs) => enclosedTokens 2 x (tokens x) ++ productTokens xs
  | neg x => .minus :: enclosedTokens 3 x (tokens x)
  | floorDiv a b => enclosedTokens 2 a (tokens a) ++ .slashSlash :: enclosedTokens 3 b (tokens b)
  | remainder a b => enclosedTokens 2 a (tokens a) ++ .percent :: enclosedTokens 3 b (tokens b)
  | subscript x index => .ident x :: .lbracket :: listTokens index ++ [.rbracket]
  | call f args => .ident f :: .lparen :: listTokens args ++ [.rparen]

def sumTokens : List Expr → List TokenKind
  | [] => []
  | neg x :: xs => .minus :: enclosedTokens 2 x (tokens x) ++ sumTokens xs
  | x :: xs => .plus :: enclosedTokens 2 x (tokens x) ++ sumTokens xs

def productTokens : List Expr → List TokenKind
  | [] => []
  | x :: xs => .star :: enclosedTokens 3 x (tokens x) ++ productTokens xs

def listTokens : List Expr → List TokenKind
  | [] => []
  | [x] => tokens x
  | x :: xs => tokens x ++ .comma :: listTokens xs

end

def signToken : Expr → TokenKind
  | neg _ => .minus
  | _ => .plus

def tokensAt (least : Nat) (e : Expr) : List TokenKind := enclosedTokens least e e.tokens

theorem sumTokens_cons : sumTokens (x :: xs) =
    x.signToken :: x.unsigned.tokensAt 2 ++ sumTokens xs := by
  cases x <;> rfl

theorem sumTokens_eq_flatMap :
    sumTokens xs = xs.flatMap fun x => x.signToken :: x.unsigned.tokensAt 2 := by
  induction xs with
  | nil => rfl
  | cons x xs ih => rw [sumTokens_cons, ih, List.flatMap_cons]

theorem productTokens_eq_flatMap :
    productTokens xs = xs.flatMap fun x => .star :: x.tokensAt 3 := by
  induction xs with
  | nil => rfl
  | cons x xs ih =>
    rw [productTokens, ih, List.flatMap_cons]
    rfl

theorem listTokens_eq_joined : ∀ xs : List Expr, listTokens xs = joined .comma (xs.map tokens)
  | [] => rfl
  | [x] => by simp [listTokens, joined]
  | x :: y :: ys => by
    rw [listTokens, listTokens_eq_joined (y :: ys)]
    · simp [joined]
    · exact List.cons_ne_nil y ys

theorem listText_eq_intercalate : ∀ xs : List Expr, listText xs = ", ".intercalate (xs.map text)
  | [] => rfl
  | [x] => by simp [listText]
  | x :: y :: ys => by
    rw [listText, listText_eq_intercalate (y :: ys), List.map_cons, List.map_cons, List.map_cons,
      String.intercalate_cons_cons]
    · exact List.cons_ne_nil y ys

section Spelling

def Leads (a : String) : Prop := ∃ c cs, a.toList = c :: cs ∧ c ≠ '>'

theorem Leads.append (h : Leads a) : Leads (a ++ b) := by
  have ⟨c, cs, hcs, hc⟩ := h
  exact ⟨c, cs ++ b.toList, by rw [String.toList_append, hcs, List.cons_append], hc⟩

theorem Leads.enclosed (h : Leads a) : Leads (enclosed least e a) := by
  unfold Expr.enclosed
  split_ifs
  · have hparen : Leads "(" := ⟨'(', [], rfl, by decide⟩
    exact hparen.append.append
  · exact h

theorem leads_of_isName (h : IsName a) : Leads a := by
  have ⟨⟨c, cs, hcs, hc, _⟩, _⟩ := h
  refine ⟨c, cs, hcs, ?_⟩
  rintro rfl
  cases hc

theorem leads_decimal (n : Int) : Leads (Decimal.text n) := by
  have hdigits : Leads (Nat.repr n.natAbs) := by
    cases hds : Nat.toDigits 10 n.natAbs with
    | nil => exact absurd hds Nat.toDigits_ne_nil
    | cons c cs =>
      refine ⟨c, cs, by rw [Nat.repr_eq_ofList_toDigits, String.toList_ofList, hds], ?_⟩
      rintro rfl
      have hmem : '>' ∈ Nat.toDigits 10 n.natAbs := hds ▸ List.mem_cons_self ..
      exact absurd (Decimal.isDigit_of_mem_toDigits hmem) (by decide)
  have hminus : Leads "-" := ⟨'-', [], rfl, by decide⟩
  unfold Decimal.text
  split_ifs
  · exact hminus.append
  · exact hdigits

theorem Legible.leads (h : Legible e) : Leads e.text := by
  induction h with
  | int => exact leads_decimal _
  | var hx => exact leads_of_isName hx
  | sum _ _ _ ih => exact ih.enclosed.append
  | product _ _ _ ih => exact ih.enclosed.append
  | neg =>
    have hminus : Leads "-" := ⟨'-', [], rfl, by decide⟩
    exact hminus.append
  | floorDiv _ _ ih => exact ih.enclosed.append.append
  | remainder _ _ ih => exact ih.enclosed.append.append
  | subscript ha => exact (leads_of_isName ha).append.append.append
  | call hf => exact (leads_of_isName hf).append.append.append

theorem spells_minus_append (ha : Leads a) (h : Spells a kinds) :
    Spells ("-" ++ a) (.minus :: kinds) := by
  intro rest hrest
  have ⟨c, cs, hcs, hc⟩ := ha
  rw [String.toList_append]
  refine (Token.lexes_minus ?_).append (h rest hrest)
  rw [hcs]
  rintro d ⟨⟩
  exact hc

theorem spells_int {n : Int} (hn : Word.Fits n) (hleast : n ≠ Word.least) :
    Spells (Decimal.text n) (int n).tokens := by
  rw [tokens]
  split_ifs with hneg
  · have htext : Decimal.text n = "-" ++ Decimal.text (-n) := by
      rw [Decimal.text, if_pos hneg, Decimal.text_of_nonneg (by omega), Int.natAbs_neg]
    rw [htext]
    exact spells_minus_append (leads_decimal _) (.decimal (by omega) (Affine.fits_neg hn hleast))
  · exact .decimal (by omega) hn

theorem enclosed_spells (h : Spells a kinds) :
    Spells (enclosed least e a) (enclosedTokens least e kinds) := by
  unfold enclosed enclosedTokens
  split_ifs
  · have hcloses : Closes ")" := ⟨_, _, rfl, by decide⟩
    exact (Token.marks_lparen.append_spells h |>.append_marks hcloses Token.marks_rparen).spells
  · exact h

theorem breaks_sumTail (xs : List Expr) : Breaks (sumTail xs).toList := by
  cases xs with
  | nil => exact nofun
  | cons x xs =>
    have hplus : Closes " + " := ⟨_, _, rfl, by decide⟩
    have hminus : Closes " - " := ⟨_, _, rfl, by decide⟩
    have hsign : Closes x.sign := by
      cases x with
      | neg => exact hminus
      | _ => exact hplus
    rw [sumTail_cons, String.append_assoc]
    exact hsign.breaks_text

theorem sumTail_spells (h : ∀ x ∈ xs, Spells x.unsigned.text x.unsigned.tokens) :
    Spells (sumTail xs) (sumTokens xs) := by
  induction xs with
  | nil => exact fun _ _ => Lexes.nil
  | cons x xs ih =>
    have ⟨hx, hxs⟩ := List.forall_mem_cons.mp h
    have hsign : Marks x.sign [x.signToken] := by
      cases x with
      | neg => exact Token.marks_minus
      | _ => exact Token.marks_plus
    rw [sumTail_cons, sumTokens_cons]
    exact (hsign.append_spells (enclosed_spells hx)).append (breaks_sumTail xs) (ih hxs)

theorem breaks_productTail (xs : List Expr) : Breaks (productTail xs).toList := by
  cases xs with
  | nil => exact nofun
  | cons x xs =>
    have hsign : Closes " * " := ⟨_, _, rfl, by decide⟩
    rw [productTail, String.append_assoc]
    exact hsign.breaks_text

theorem productTail_spells (h : ∀ x ∈ xs, Spells x.text x.tokens) :
    Spells (productTail xs) (productTokens xs) := by
  induction xs with
  | nil => exact fun _ _ => Lexes.nil
  | cons x xs ih =>
    have ⟨hx, hxs⟩ := List.forall_mem_cons.mp h
    rw [productTail, productTokens]
    exact (Token.marks_star.append_spells (enclosed_spells hx)).append (breaks_productTail xs)
      (ih hxs)

theorem listText_spells (h : ∀ x ∈ xs, Spells x.text x.tokens) :
    Spells (listText xs) (listTokens xs) := by
  rw [listText_eq_intercalate, listTokens_eq_joined]
  exact .intercalate Token.marks_comma ⟨_, _, rfl, by decide⟩ h

theorem operation_spells {y : Expr} {op : String} {kind : TokenKind} (hop : Marks op [kind])
    (hcloses : Closes op) (hx : Spells x.text x.tokens) (hy : Spells y.text y.tokens) :
    Spells (enclosed 2 x x.text ++ op ++ enclosed 3 y y.text)
      (x.tokensAt 2 ++ kind :: y.tokensAt 3) := by
  have hleft : Marks (enclosed 2 x x.text ++ op) (x.tokensAt 2 ++ [kind]) :=
    (enclosed_spells hx).append_marks hcloses hop
  have hright : Spells (enclosed 3 y y.text) (y.tokensAt 3) := enclosed_spells hy
  simpa using hleft.append_spells hright

theorem bracketed_spells {c : Char} {opening closing : String} {left right : TokenKind}
    (ha : IsName a) (hc : opening.toList = [c]) (hword : Token.isWordChar c = false)
    (hopening : Marks opening [left]) (hb : Spells b kinds) (hcloses : Closes closing)
    (hclosing : Marks closing [right]) :
    Spells (a ++ opening ++ b ++ closing) (.ident a :: left :: kinds ++ [right]) := by
  intro rest _
  have hinside := (hopening.append_spells hb).append_marks hcloses hclosing rest
  have hname : Lexes a.toList [.ident a] ((opening ++ b ++ closing).toList ++ rest) := by
    refine Lexes.name ha fun d hd => ?_
    obtain rfl : c = d := by simpa [hc] using hd
    exact hword
  have htext : (a ++ opening ++ b ++ closing).toList =
      a.toList ++ (opening ++ b ++ closing).toList := by simp
  rw [htext]
  exact hname.append hinside

theorem Legible.spells (h : Legible e) : Spells e.text e.tokens := by
  induction h with
  | int hfits hleast => exact spells_int hfits hleast
  | var hx => exact .name hx
  | sum _ _ _ ihx ihys =>
    rw [text, tokens, enclosed_one]
    exact ihx.append (breaks_sumTail _) (sumTail_spells ihys)
  | product _ _ _ ihx ihys =>
    rw [text, tokens]
    exact (enclosed_spells ihx).append (breaks_productTail _) (productTail_spells ihys)
  | neg hx _ ih =>
    rw [text, tokens]
    exact spells_minus_append hx.leads.enclosed (enclosed_spells ih)
  | floorDiv _ _ iha ihb =>
    rw [text, tokens]
    exact operation_spells Token.marks_slashSlash ⟨_, _, rfl, by decide⟩ iha ihb
  | remainder _ _ iha ihb =>
    rw [text, tokens]
    exact operation_spells Token.marks_percent ⟨_, _, rfl, by decide⟩ iha ihb
  | subscript ha _ _ ih =>
    rw [text, tokens]
    exact bracketed_spells ha rfl rfl Token.marks_lbracket (listText_spells ih)
      ⟨_, _, rfl, by decide⟩ Token.marks_bracket_end
  | call hf _ ih =>
    rw [text, tokens]
    exact bracketed_spells hf rfl rfl Token.marks_lparen (listText_spells ih)
      ⟨_, _, rfl, by decide⟩ Token.marks_rparen

end Spelling

end LoopAudit.Expr
