import LoopAudit.Text.Token
import Mathlib.Data.List.Basic

/-! How written text falls into tokens. A piece of text spells its tokens wherever the character
after it ends every word, number and sign; texts that are joined at such places spell the joined
tokens. -/

namespace LoopAudit

namespace Decimal

variable {c : Char} {n : Nat}

theorem value_toDigits : value (Nat.toDigits 10 n) = n := by
  have h := Nat.ofDigitChars_ten_toDigits (n := n)
  rwa [Nat.ofDigitChars_eq_foldl] at h

theorem isDigit_iff : isDigit c = true ↔ 48 ≤ c.toNat ∧ c.toNat ≤ 57 := by
  simp [isDigit, Char.le_def, UInt32.le_iff_toNat_le]

theorem isDigit_of_mem_toDigits (h : c ∈ Nat.toDigits 10 n) : isDigit c = true := by
  have hdigit := Nat.isDigit_of_mem_toDigits (by decide) (Nat.le_refl 10) h
  rw [isDigit_iff]
  simpa [Char.isDigit, UInt32.le_iff_toNat_le] using hdigit

end Decimal

namespace Token

variable {c d : Char} {cs text text' rest : List Char} {kind : TokenKind}
  {kinds kinds' : List TokenKind} {x a b : String} {n : Nat}

theorem isLetter_iff : isLetter c = true ↔
    97 ≤ c.toNat ∧ c.toNat ≤ 122 ∨ 65 ≤ c.toNat ∧ c.toNat ≤ 90 ∨ c.toNat = 95 := by
  have hunderscore : c = '_' ↔ c.toNat = 95 := ⟨fun h => h ▸ rfl, fun h => Char.toNat_inj.mp h⟩
  simp [isLetter, Char.le_def, UInt32.le_iff_toNat_le, hunderscore, or_assoc]

theorem isLetter_eq_false (h : Decimal.isDigit c = true) : isLetter c = false := by
  rw [Decimal.isDigit_iff] at h
  rw [Bool.eq_false_iff, Ne, isLetter_iff]
  omega

theorem isBlank_eq_false (h : isWordChar c = true) : isBlank c = false := by
  rw [isWordChar, Bool.or_eq_true, isLetter_iff, Decimal.isDigit_iff] at h
  rw [Bool.eq_false_iff]
  intro hblank
  simp only [isBlank, Bool.or_eq_true, beq_iff_eq] at hblank
  rcases hblank with (((rfl | rfl) | rfl) | rfl) | rfl <;> simp at h

def Lexes (text : List Char) (kinds : List TokenKind) (rest : List Char) : Prop :=
  ∀ offset, ∃ ts offset', ts.map Token.kind = kinds ∧
    scanFrom offset (text ++ rest) = (ts ++ ·) <$> scanFrom offset' rest

namespace Lexes

theorem nil : Lexes [] [] rest := by
  intro offset
  refine ⟨[], offset, rfl, ?_⟩
  simp

theorem append (ha : Lexes text kinds (text' ++ rest)) (hb : Lexes text' kinds' rest) :
    Lexes (text ++ text') (kinds ++ kinds') rest := by
  intro offset
  obtain ⟨ts, offset', rfl, hts⟩ := ha offset
  obtain ⟨us, offset'', rfl, hus⟩ := hb offset'
  refine ⟨ts ++ us, offset'', List.map_append, ?_⟩
  rw [List.append_assoc, hts, hus]
  cases scanFrom offset'' rest <;> simp [Functor.map, Except.map]

theorem blank (hc : isBlank c = true) : Lexes [c] [] rest := by
  intro offset
  refine ⟨[], offset + c.utf8Size, rfl, ?_⟩
  rw [List.singleton_append, scanFrom, if_pos hc]
  simp

theorem token (hc : isBlank c = false) (h : next c (cs ++ rest) = (some kind, cs.length)) :
    Lexes (c :: cs) [kind] rest := by
  intro offset
  refine ⟨[⟨kind, ⟨offset, byteLength (c :: cs)⟩⟩], offset + byteLength (c :: cs), rfl, ?_⟩
  rw [List.cons_append, scanFrom, if_neg (by simp [hc])]
  simp only [h, List.take_left, List.drop_left]
  cases scanFrom (offset + byteLength (c :: cs)) rest <;> rfl

theorem sign (hc : (isWordChar c || isBlank c) = false)
    (h : punctuation? c (cs ++ rest) = some (kind, cs.length)) : Lexes (c :: cs) [kind] rest := by
  simp only [isWordChar, Bool.or_eq_false_iff] at hc
  obtain ⟨⟨hletter, hdigit⟩, hblank⟩ := hc
  exact token hblank (by simp [next, hletter, hdigit, h])

theorem number (hn : Word.Fits n) (hrest : ∀ c ∈ rest.head?, Decimal.isDigit c = false) :
    Lexes (Nat.repr n).toList [.int n] rest := by
  rw [Nat.repr_eq_ofList_toDigits, String.toList_ofList]
  have hdigits : ∀ c ∈ Nat.toDigits 10 n, Decimal.isDigit c = true :=
    fun c hc => Decimal.isDigit_of_mem_toDigits hc
  have hvalue := Decimal.value_toDigits (n := n)
  cases hds : Nat.toDigits 10 n with
  | nil => exact absurd hds Nat.toDigits_ne_nil
  | cons c cs =>
    rw [hds] at hdigits hvalue
    obtain ⟨hc, hcs⟩ := List.forall_mem_cons.mp hdigits
    have htail : (cs ++ rest).takeWhile Decimal.isDigit = cs := by
      rw [List.takeWhile_append_of_pos hcs]
      cases rest with
      | nil => simp
      | cons d rest => simp [hrest d rfl]
    refine token (isBlank_eq_false (by simp [isWordChar, hc])) ?_
    simp [next, isLetter_eq_false hc, hc, htail, hvalue, Word.checked, hn]

end Lexes

def closers : List Char := [' ', ',', ')', ']', '\x7d']

def Breaks (rest : List Char) : Prop := ∀ c ∈ rest.head?, c ∈ closers

theorem Breaks.append (ha : Breaks text) (hb : Breaks rest) : Breaks (text ++ rest) := by
  cases text with
  | nil => exact hb
  | cons c text => exact ha

def Closes (a : String) : Prop := ∃ c cs, a.toList = c :: cs ∧ c ∈ closers

theorem Closes.breaks_append (h : Closes a) : Breaks (a.toList ++ rest) := by
  obtain ⟨c, cs, hcs, hc⟩ := h
  rw [hcs]
  rintro d ⟨⟩
  exact hc

theorem Closes.breaks (h : Closes a) : Breaks a.toList := by
  rw [← List.append_nil a.toList]
  exact h.breaks_append

theorem Closes.breaks_text (h : Closes a) : Breaks (a ++ b).toList := by
  rw [String.toList_append]
  exact h.breaks_append

theorem closes_blank : Closes " " := ⟨_, _, rfl, by decide⟩

/-- The text stands for tokens of these kinds in front of everything that breaks. -/
def Spells (text : String) (kinds : List TokenKind) : Prop :=
  ∀ rest, Breaks rest → Lexes text.toList kinds rest

def Marks (text : String) (kinds : List TokenKind) : Prop := ∀ rest, Lexes text.toList kinds rest

theorem Marks.spells (h : Marks a kinds) : Spells a kinds := fun rest _ => h rest

theorem Marks.append (ha : Marks a kinds) (hb : Marks b kinds') :
    Marks (a ++ b) (kinds ++ kinds') := by
  intro rest
  rw [String.toList_append]
  exact (ha _).append (hb rest)

theorem Marks.append_spells (ha : Marks a kinds) (hb : Spells b kinds') :
    Spells (a ++ b) (kinds ++ kinds') := by
  intro rest hrest
  rw [String.toList_append]
  exact (ha _).append (hb rest hrest)

theorem Spells.append_marks (ha : Spells a kinds) (hcloses : Closes b) (hb : Marks b kinds') :
    Marks (a ++ b) (kinds ++ kinds') := by
  intro rest
  rw [String.toList_append]
  exact (ha _ hcloses.breaks_append).append (hb rest)

theorem Spells.append (ha : Spells a kinds) (hbreaks : Breaks b.toList) (hb : Spells b kinds') :
    Spells (a ++ b) (kinds ++ kinds') := by
  intro rest hrest
  rw [String.toList_append]
  exact (ha _ (hbreaks.append hrest)).append (hb rest hrest)

def IsName (x : String) : Prop :=
  (∃ c cs, x.toList = c :: cs ∧ isLetter c = true ∧ cs.all isWordChar = true) ∧
    x ∉ ["and", "or", "true", "false", "mod"]

theorem isWordChar_of_mem_closers (hc : c ∈ closers) : isWordChar c = false := by
  have hall : closers.all (fun d => !isWordChar d) = true := rfl
  simpa using List.all_eq_true.mp hall c hc

theorem Lexes.word (hx : x.toList = c :: cs) (hc : isLetter c = true)
    (hcs : cs.all isWordChar = true) (hrest : ∀ d ∈ rest.head?, isWordChar d = false) :
    Lexes x.toList [ofWord x] rest := by
  rw [hx]
  have htail : (cs ++ rest).takeWhile isWordChar = cs := by
    rw [List.takeWhile_append_of_pos (List.all_eq_true.mp hcs)]
    cases rest with
    | nil => simp
    | cons d rest => simp [hrest d rfl]
  have hword : String.ofList (c :: cs) = x := by rw [← hx, String.ofList_toList]
  refine Lexes.token (isBlank_eq_false (by simp [isWordChar, hc])) ?_
  simp only [next, hc, if_true, htail, hword]

theorem Lexes.name (hx : IsName x) (hrest : ∀ d ∈ rest.head?, isWordChar d = false) :
    Lexes x.toList [.ident x] rest := by
  obtain ⟨⟨c, cs, hcs, hc, hword⟩, hkeyword⟩ := hx
  have hident : ofWord x = .ident x := by
    unfold ofWord
    split <;> simp_all
  exact hident ▸ Lexes.word hcs hc hword hrest

theorem Spells.word (hx : x.toList = c :: cs) (hc : isLetter c = true)
    (hcs : cs.all isWordChar = true) : Spells x [ofWord x] :=
  fun _ hrest => Lexes.word hx hc hcs fun d hd => isWordChar_of_mem_closers (hrest d hd)

theorem Spells.name (hx : IsName x) : Spells x [.ident x] :=
  fun _ hrest => Lexes.name hx fun d hd => isWordChar_of_mem_closers (hrest d hd)

theorem Spells.number (hn : Word.Fits n) : Spells (Nat.repr n) [.int n] := by
  intro rest hrest
  refine Lexes.number hn fun c hc => ?_
  have hword := isWordChar_of_mem_closers (hrest c hc)
  simp only [isWordChar, Bool.or_eq_false_iff] at hword
  exact hword.2

theorem Spells.coefficient (hn : Word.Fits n) (hx : IsName x) :
    Spells (Nat.repr n ++ x) [.int n, .ident x] := by
  intro rest hrest
  rw [String.toList_append]
  have hname := Spells.name hx rest hrest
  obtain ⟨⟨c, cs, hcs, hc, -⟩, -⟩ := hx
  refine (Lexes.number hn fun d hd => ?_).append hname
  rw [hcs] at hd
  obtain rfl : c = d := by simpa using hd
  by_contra hdigit
  rw [Bool.not_eq_false] at hdigit
  rw [isLetter_eq_false hdigit] at hc
  cases hc

theorem Marks.blank : Marks " " [] := fun _ => Lexes.blank rfl

theorem Marks.sign (ha : a.toList = [c]) (hc : (isWordChar c || isBlank c) = false)
    (h : ∀ rest, punctuation? c rest = some (kind, 0)) : Marks a [kind] := by
  intro rest
  rw [ha]
  exact Lexes.sign hc (h rest)

theorem Marks.followed (h : Marks a kinds) (hb : b = a ++ " ") : Marks b kinds := by
  rw [hb]
  simpa using h.append Marks.blank

theorem Marks.spaced (h : Spells a kinds) (hb : b = " " ++ a ++ " ") : Marks b kinds := by
  have hend : Marks (a ++ " ") (kinds ++ []) := h.append_marks closes_blank Marks.blank
  rw [hb, String.append_assoc]
  simpa using Marks.blank.append hend

theorem Spells.scan (h : Spells a kinds) :
    ∃ ts, Token.scan a = .ok ts ∧ ts.map Token.kind = kinds ++ [.eof] := by
  have ⟨ts, offset, hts, hscan⟩ := h [] nofun 0
  rw [List.append_nil] at hscan
  refine ⟨ts ++ [⟨.eof, ⟨offset, 0⟩⟩], ?_, by simp [hts]⟩
  rw [Token.scan, hscan, scanFrom]
  rfl

def joined (kind : TokenKind) : List (List TokenKind) → List TokenKind
  | [] => []
  | first :: rest => first ++ rest.flatMap (kind :: ·)

theorem Spells.intercalate {α : Type} {items : List α} {text : α → String}
    {kinds : α → List TokenKind} {sep : String} (hsep : Marks sep [kind])
    (hcloses : Closes sep) (h : ∀ i ∈ items, Spells (text i) (kinds i)) :
    Spells (sep.intercalate (items.map text)) (joined kind (items.map kinds)) := by
  intro rest hrest
  rw [String.toList_intercalate, List.map_map]
  induction items with
  | nil => exact Lexes.nil
  | cons i items ih =>
    obtain ⟨hi, hitems⟩ := List.forall_mem_cons.mp h
    cases items with
    | nil => simpa [joined] using hi rest hrest
    | cons j items =>
      have htail := (hsep _).append (ih hitems)
      rw [List.map_cons, List.map_cons, List.intercalate_cons_cons, List.append_assoc]
      have hbreaks (text' : List Char) : Breaks (sep.toList ++ text' ++ rest) := by
        rw [List.append_assoc]
        exact hcloses.breaks_append
      simpa [joined] using (hi _ (hbreaks _)).append htail

section Signs

theorem spells_and : Spells "and" [.kwAnd] := Spells.word rfl rfl rfl

theorem spells_or : Spells "or" [.kwOr] := Spells.word rfl rfl rfl

theorem spells_mod : Spells "mod" [.kwMod] := Spells.word rfl rfl rfl

theorem spells_true : Spells "true" [.kwTrue] := Spells.word rfl rfl rfl

theorem spells_false : Spells "false" [.kwFalse] := Spells.word rfl rfl rfl

theorem spells_arrow : Spells "->" [.arrow] := fun _ _ => Lexes.sign rfl rfl

theorem spells_ge : Spells ">=" [.ge] := fun _ _ => Lexes.sign rfl rfl

theorem spells_eq : Spells "=" [.eq] := by
  intro rest hrest
  refine Lexes.sign rfl ?_
  cases rest with
  | nil => rfl
  | cons c rest =>
    have hc := hrest c rfl
    simp only [closers, List.mem_cons, List.not_mem_nil, or_false] at hc
    rcases hc with rfl | rfl | rfl | rfl | rfl <;> rfl

theorem spells_slashSlash : Spells "//" [.slashSlash] := fun _ _ => Lexes.sign rfl rfl

theorem lexes_minus (hrest : ∀ d ∈ rest.head?, d ≠ '>') : Lexes "-".toList [.minus] rest := by
  have hsign : punctuation? '-' rest = some (.minus, 0) := by
    cases rest with
    | nil => rfl
    | cons d rest => simp [punctuation?, hrest d rfl]
  exact Lexes.sign rfl hsign

theorem spells_minus : Spells "-" [.minus] := by
  intro rest hrest
  apply lexes_minus
  rintro d hd rfl
  exact absurd (hrest '>' hd) (by decide)

theorem marks_plus : Marks " + " [.plus] :=
  Marks.spaced (Marks.sign (a := "+") rfl rfl fun _ => rfl).spells rfl

theorem marks_minus : Marks " - " [.minus] := Marks.spaced spells_minus rfl

theorem marks_star : Marks " * " [.star] :=
  Marks.spaced (Marks.sign (a := "*") rfl rfl fun _ => rfl).spells rfl

theorem marks_slashSlash : Marks " // " [.slashSlash] := Marks.spaced spells_slashSlash rfl

theorem marks_percent : Marks " % " [.percent] :=
  Marks.spaced (Marks.sign (a := "%") rfl rfl fun _ => rfl).spells rfl

theorem marks_comma : Marks ", " [.comma] :=
  (Marks.sign (a := ",") rfl rfl fun _ => rfl).followed rfl

theorem marks_colon : Marks ": " [.colon] :=
  (Marks.sign (a := ":") rfl rfl fun _ => rfl).followed rfl

theorem marks_lbrace : Marks "\x7b " [.lbrace] :=
  (Marks.sign (a := "\x7b") rfl rfl fun _ => rfl).followed rfl

theorem marks_rbrace : Marks "\x7d" [.rbrace] := Marks.sign rfl rfl fun _ => rfl

theorem marks_lbracket : Marks "[" [.lbracket] := Marks.sign rfl rfl fun _ => rfl

theorem marks_bracket_end : Marks "]" [.rbracket] := Marks.sign rfl rfl fun _ => rfl

theorem marks_rbracket : Marks "] " [.rbracket] := marks_bracket_end.followed rfl

theorem marks_rbracket_arrow : Marks "] -> " [.rbracket, .arrow] := by
  have harrow : Marks " -> " [.arrow] := Marks.spaced spells_arrow rfl
  exact marks_bracket_end.append harrow

theorem marks_lparen : Marks "(" [.lparen] := Marks.sign rfl rfl fun _ => rfl

theorem marks_rparen : Marks ")" [.rparen] := Marks.sign rfl rfl fun _ => rfl

end Signs

end Token

end LoopAudit
