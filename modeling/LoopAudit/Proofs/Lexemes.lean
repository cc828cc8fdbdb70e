import LoopAudit.Proofs.Fallible
import LoopAudit.Proofs.Scanning

/-! The rule by which a text falls into tokens: each token takes the longest word that stands for
one, with blanks between them. The scanner keeps to the rule, and no text falls into tokens in two
ways. -/

namespace LoopAudit.Token

open Fallible

variable {c : Char} {cs w w' text : List Char} {kind kind' : TokenKind}
  {kinds kinds' : List TokenKind} {x : String} {n : Nat}

def keywords : List (String × TokenKind) :=
  [("and", .kwAnd), ("or", .kwOr), ("true", .kwTrue), ("false", .kwFalse), ("mod", .kwMod)]

def longSigns : List (String × TokenKind) :=
  [("&&", .kwAnd), ("||", .kwOr), ("->", .arrow), ("==", .eqEq), ("<=", .le), (">=", .ge),
    ("//", .slashSlash)]

def shortSigns : List (String × TokenKind) :=
  [(":", .colon), (";", .semi), (",", .comma), ("=", .eq), ("<", .lt), (">", .gt), ("+", .plus),
    ("-", .minus), ("*", .star), ("/", .slash), ("%", .percent), ("(", .lparen), (")", .rparen),
    ("\x7b", .lbrace), ("\x7d", .rbrace), ("[", .lbracket), ("]", .rbracket)]

def fixedWords : List (String × TokenKind) := keywords ++ (longSigns ++ shortSigns)

inductive Denotes : List Char → TokenKind → Prop
  | fixed {x : String} {kind : TokenKind} (h : (x, kind) ∈ fixedWords) : Denotes x.toList kind
  | name {x : String} (h : IsName x) : Denotes x.toList (.ident x)
  | number {c : Char} {cs : List Char} (h : (c :: cs).all Decimal.isDigit = true) :
      Denotes (c :: cs) (.int (Decimal.value (c :: cs)))

/-- The text is a sequence of words for tokens of these kinds, each as long as it can be. -/
inductive Segments : List Char → List TokenKind → Prop
  | nil : Segments [] []
  | blank {c : Char} {text : List Char} {kinds : List TokenKind} (hc : isBlank c = true)
      (h : Segments text kinds) : Segments (c :: text) kinds
  | word {w text : List Char} {kind : TokenKind} {kinds : List TokenKind} (hw : Denotes w kind)
      (hlongest : ∀ w' kind', Denotes w' kind' → w' <+: w ++ text → w'.length ≤ w.length)
      (h : Segments text kinds) : Segments (w ++ text) (kind :: kinds)

section Words

theorem fixedWords_functional {kind' : TokenKind} (h : (x, kind) ∈ fixedWords)
    (h' : (x, kind') ∈ fixedWords) : kind = kind' := by
  have hall :
      fixedWords.all (fun p => fixedWords.all fun q => p.1 != q.1 || p.2 == q.2) = true := by
    decide +kernel
  have hpair := List.all_eq_true.mp (List.all_eq_true.mp hall _ h) _ h'
  simpa using hpair

theorem ofWord_name (hx : IsName x) : ofWord x = .ident x := by
  obtain ⟨-, hkeyword⟩ := hx
  unfold ofWord
  split <;> simp_all

theorem fixedWords_shape (h : (x, kind) ∈ fixedWords) : ∃ c cs, x.toList = c :: cs ∧
    isBlank c = false ∧ Decimal.isDigit c = false ∧
      (isLetter c = true → cs.all isWordChar = true ∧ ofWord x = kind) := by
  have hall : fixedWords.all (fun p => p.1.toList.head?.any fun c => !isBlank c &&
      !Decimal.isDigit c && (!isLetter c ||
        p.1.toList.tail.all isWordChar && decide (ofWord p.1 = p.2))) = true := by
    decide +kernel
  have hx := List.all_eq_true.mp hall _ h
  rcases hlist : x.toList with _ | ⟨c, cs⟩
  · simp [hlist] at hx
  · simp only [hlist, List.head?_cons, Option.any_some, List.tail_cons, Bool.and_eq_true,
      Bool.not_eq_true', Bool.or_eq_true, decide_eq_true_eq] at hx
    refine ⟨c, cs, rfl, hx.1.1, hx.1.2, fun hc => ?_⟩
    simpa [hc] using hx.2

theorem ofWord_mem (h : ofWord x ≠ .ident x) : (x, ofWord x) ∈ fixedWords := by
  unfold ofWord at h ⊢
  split <;> simp_all [fixedWords, keywords]

theorem denotes_cons : Denotes (c :: cs) kind ↔
    isLetter c = true ∧ cs.all isWordChar = true ∧ ofWord (String.ofList (c :: cs)) = kind ∨
      Decimal.isDigit c = true ∧ cs.all Decimal.isDigit = true ∧
        kind = .int (Decimal.value (c :: cs)) ∨
      isLetter c = false ∧ Decimal.isDigit c = false ∧
        (String.ofList (c :: cs), kind) ∈ fixedWords := by
  constructor
  · intro h
    generalize hw : c :: cs = w at h
    cases h with
    | @fixed x _ hx =>
      obtain ⟨d, ds, hlist, -, hdigit, hletter⟩ := fixedWords_shape hx
      obtain ⟨rfl, rfl⟩ := List.cons.inj (hw.trans hlist)
      rw [String.ofList_toList]
      by_cases hc : isLetter c = true
      · exact .inl ⟨hc, (hletter hc).1, (hletter hc).2⟩
      · exact .inr (.inr ⟨by simpa using hc, hdigit, hx⟩)
    | @name x hx =>
      obtain ⟨d, ds, hlist, hletter, hword⟩ := hx.1
      obtain ⟨rfl, rfl⟩ := List.cons.inj (hw.trans hlist)
      rw [String.ofList_toList]
      exact .inl ⟨hletter, hword, ofWord_name hx⟩
    | number hdigits =>
      obtain ⟨rfl, rfl⟩ := List.cons.inj hw
      rw [List.all_cons, Bool.and_eq_true] at hdigits
      exact .inr (.inl ⟨hdigits.1, hdigits.2, rfl⟩)
  · rintro (⟨hc, hcs, rfl⟩ | ⟨hc, hcs, rfl⟩ | ⟨-, -, h⟩)
    · have hlist : (String.ofList (c :: cs)).toList = c :: cs := String.toList_ofList
      rw [← hlist, String.ofList_toList]
      by_cases hname : ofWord (String.ofList (c :: cs)) = .ident (String.ofList (c :: cs))
      · rw [hname]
        refine .name ⟨⟨c, cs, hlist, hc, hcs⟩, fun hkeyword => ?_⟩
        simp only [List.mem_cons, List.not_mem_nil, or_false] at hkeyword
        rcases hkeyword with h | h | h | h | h <;> rw [h] at hname <;> cases hname
      · exact .fixed (ofWord_mem hname)
    · exact .number (by simp [hc, hcs])
    · have hfixed := Denotes.fixed h
      rwa [String.toList_ofList] at hfixed

theorem Denotes.eq_cons (h : Denotes w kind) : ∃ c cs, w = c :: cs ∧ isBlank c = false := by
  cases h with
  | fixed hx =>
    obtain ⟨c, cs, hlist, hblank, -⟩ := fixedWords_shape hx
    exact ⟨c, cs, hlist, hblank⟩
  | name hx =>
    obtain ⟨c, cs, hlist, hletter, -⟩ := hx.1
    exact ⟨c, cs, hlist, isBlank_eq_false (by simp [isWordChar, hletter])⟩
  | @number c cs hdigits =>
    rw [List.all_cons, Bool.and_eq_true] at hdigits
    exact ⟨c, cs, rfl, isBlank_eq_false (by simp [isWordChar, hdigits.1])⟩

theorem Denotes.isName (h : Denotes w (.ident x)) : IsName x := by
  generalize hkind : TokenKind.ident x = kind at h
  cases h with
  | fixed hx =>
    subst hkind
    simp [fixedWords, keywords, longSigns, shortSigns] at hx
  | name hx =>
    cases hkind
    exact hx
  | number => cases hkind

theorem Denotes.nonneg {m : Int} (h : Denotes w (.int m)) : 0 ≤ m := by
  generalize hkind : TokenKind.int m = kind at h
  cases h with
  | fixed hx =>
    subst hkind
    simp [fixedWords, keywords, longSigns, shortSigns] at hx
  | name => cases hkind
  | number =>
    cases hkind
    exact Int.natCast_nonneg _

theorem Denotes.ne_eof (h : Denotes w kind) : kind ≠ .eof := by
  cases h with
  | fixed hx =>
    rintro rfl
    simp [fixedWords, keywords, longSigns, shortSigns] at hx
  | name => nofun
  | number => nofun

theorem Denotes.functional (h : Denotes w kind) (h' : Denotes w kind') : kind = kind' := by
  obtain ⟨c, cs, rfl, -⟩ := h.eq_cons
  rcases denotes_cons.mp h with ⟨hc, -, rfl⟩ | ⟨hc, -, rfl⟩ | ⟨hc, hd, h⟩ <;>
    rcases denotes_cons.mp h' with ⟨hc', -, rfl⟩ | ⟨hc', -, rfl⟩ | ⟨hc', hd', h'⟩ <;>
    simp_all [isLetter_eq_false]
  exact fixedWords_functional h h'

end Words

section Longest

theorem length_le_takeWhile {p : Char → Bool} (hall : w.all p = true) (h : w <+: cs) :
    w.length ≤ (cs.takeWhile p).length := by
  obtain ⟨rest, rfl⟩ := h
  rw [List.takeWhile_append_of_pos (List.all_eq_true.mp hall), List.length_append]
  exact Nat.le_add_right ..

theorem take_takeWhile {p : Char → Bool} :
    cs.take (cs.takeWhile p).length = cs.takeWhile p :=
  (List.prefix_iff_eq_take.mp (List.takeWhile_prefix p)).symm

theorem punctuation?_fixed (h : punctuation? c cs = some (kind, n)) :
    (String.ofList (c :: cs.take n), kind) ∈ fixedWords := by
  unfold punctuation? at h
  split at h <;> cases h <;> simp only [List.take_succ_cons, List.take_zero] <;> decide +kernel

theorem punctuation?_longest (h : punctuation? c cs = some (kind, n)) (hletter : isLetter c = false)
    (hw : (String.ofList (c :: w), kind') ∈ fixedWords) (hinitial : w <+: cs) : w.length ≤ n := by
  have hshort : ∀ p ∈ shortSigns, p.1.toList.length = 1 := by decide +kernel
  have hkeyword : ∀ p ∈ keywords, p.1.toList.head?.any isLetter = true := by decide +kernel
  obtain ⟨rest, rfl⟩ := hinitial
  rcases List.mem_append.mp hw with hw | hw
  · have hany := hkeyword _ hw
    rw [String.toList_ofList, List.head?_cons, Option.any_some, hletter] at hany
    cases hany
  · rcases List.mem_append.mp hw with hw | hw
    · have hlist : (String.ofList (c :: w)).toList = c :: w := String.toList_ofList
      simp only [longSigns, List.mem_cons, Prod.mk.injEq, List.not_mem_nil, or_false] at hw
      rcases hw with ⟨heq, -⟩ | ⟨heq, -⟩ | ⟨heq, -⟩ | ⟨heq, -⟩ | ⟨heq, -⟩ | ⟨heq, -⟩ | ⟨heq, -⟩ <;>
        rw [heq] at hlist <;> cases hlist <;> cases h <;> exact Nat.le_refl 1
    · have hlength := hshort _ hw
      rw [String.toList_ofList, List.length_cons] at hlength
      omega

theorem next_denotes (h : next c cs = (some kind, n)) : Denotes (c :: cs.take n) kind := by
  unfold next at h
  split_ifs at h with hletter hdigit
  · obtain ⟨hkind, rfl⟩ := Prod.mk.inj h
    rw [take_takeWhile]
    refine denotes_cons.mpr (.inl ⟨hletter, List.all_takeWhile, ?_⟩)
    exact Option.some.inj hkind
  · obtain ⟨hkind, rfl⟩ := Prod.mk.inj h
    rw [take_takeWhile]
    obtain ⟨m, hm, rfl⟩ := Option.map_eq_some_iff.mp hkind
    refine denotes_cons.mpr (.inr (.inl ⟨hdigit, List.all_takeWhile, ?_⟩))
    rw [Word.checked, Option.ite_none_right_eq_some] at hm
    rw [← Option.some.inj hm.2]
  · split at h
    · next found =>
      cases h
      refine denotes_cons.mpr (.inr (.inr ⟨by simpa using hletter, by simpa using hdigit, ?_⟩))
      exact punctuation?_fixed found
    · cases h

theorem next_longest (h : next c cs = (some kind, n)) (hw : Denotes w kind')
    (hinitial : w <+: c :: cs) : w.length ≤ n + 1 := by
  obtain ⟨d, ds, rfl, -⟩ := hw.eq_cons
  obtain ⟨rfl, hds⟩ := List.cons_prefix_cons.mp hinitial
  rw [List.length_cons, Nat.succ_le_succ_iff]
  rw [next] at h
  rcases denotes_cons.mp hw with
    ⟨hletter, hword, -⟩ | ⟨hdigit, hdigits, -⟩ | ⟨hletter, hdigit, hfixed⟩
  · rw [if_pos hletter] at h
    rw [← (Prod.mk.inj h).2]
    exact length_le_takeWhile hword hds
  · rw [if_neg (by simp [isLetter_eq_false hdigit]), if_pos hdigit] at h
    rw [← (Prod.mk.inj h).2]
    exact length_le_takeWhile hdigits hds
  · rw [if_neg (by simp [hletter]), if_neg (by simp [hdigit])] at h
    split at h
    · next found =>
      cases h
      exact punctuation?_longest found hletter hfixed hds
    · cases h

end Longest

namespace Segments

theorem unique (h : Segments text kinds) (h' : Segments text kinds') : kinds = kinds' := by
  induction h generalizing kinds' with
  | nil =>
    generalize htext : ([] : List Char) = text at h'
    cases h' with
    | nil => rfl
    | blank => cases htext
    | word hw =>
      obtain ⟨_, _, rfl, -⟩ := hw.eq_cons
      cases htext
  | @blank c text kinds hc _ ih =>
    generalize htext : c :: text = text' at h'
    cases h' with
    | nil => cases htext
    | blank _ h' =>
      cases htext
      exact ih h'
    | word hw =>
      obtain ⟨_, _, rfl, hblank⟩ := hw.eq_cons
      cases htext
      rw [hc] at hblank
      cases hblank
  | @word w text kind kinds hw hlongest _ ih =>
    generalize htext : w ++ text = text' at h'
    cases h' with
    | nil =>
      obtain ⟨_, _, rfl, -⟩ := hw.eq_cons
      cases htext
    | blank hc =>
      obtain ⟨_, _, rfl, hblank⟩ := hw.eq_cons
      cases htext
      rw [hc] at hblank
      cases hblank
    | @word v text' _ _ hv hlongest' h' =>
      have hle := hlongest v _ hv (htext ▸ List.prefix_append v text')
      have hge := hlongest' w _ hw (htext ▸ List.prefix_append w text)
      obtain ⟨rfl, rfl⟩ := List.append_inj htext (Nat.le_antisymm hge hle)
      rw [hw.functional hv, ih h']

theorem exists_denotes (h : Segments text kinds) (hkind : kind ∈ kinds) : ∃ w, Denotes w kind := by
  induction h with
  | nil => cases hkind
  | blank _ _ ih => exact ih hkind
  | word hw _ _ ih =>
    rcases List.mem_cons.mp hkind with rfl | hkind
    · exact ⟨_, hw⟩
    · exact ih hkind

theorem isName (h : Segments text kinds) (hx : .ident x ∈ kinds) : IsName x := by
  obtain ⟨w, hw⟩ := h.exists_denotes hx
  exact hw.isName

theorem nonneg {m : Int} (h : Segments text kinds) (hm : .int m ∈ kinds) : 0 ≤ m := by
  obtain ⟨w, hw⟩ := h.exists_denotes hm
  exact hw.nonneg

theorem eof_not_mem (h : Segments text kinds) : .eof ∉ kinds := by
  intro hmem
  obtain ⟨w, hw⟩ := h.exists_denotes hmem
  exact hw.ne_eof rfl

end Segments

theorem next_int {m : Int} (h : next c cs = (some (.int m), n)) : Word.Fits m := by
  have hdenotes := next_denotes h
  rw [next] at h
  rcases denotes_cons.mp hdenotes with ⟨-, -, hword⟩ | ⟨hdigit, -, -⟩ | ⟨-, -, hfixed⟩
  · unfold ofWord at hword
    split at hword <;> cases hword
  · rw [if_neg (by simp [isLetter_eq_false hdigit]), if_pos hdigit] at h
    have hchecked := (Prod.mk.inj h).1
    simp only [Word.checked, Option.map_if, Option.ite_none_right_eq_some, Option.some.injEq,
      TokenKind.int.injEq] at hchecked
    exact hchecked.2 ▸ hchecked.1
  · simp [fixedWords, keywords, longSigns, shortSigns] at hfixed

theorem scanFrom_cons {offset : Nat} {ts : List Token} (hc : isBlank c = false)
    (h : scanFrom offset (c :: cs) = .ok ts) : ∃ kind n rest, next c cs = (some kind, n) ∧
      scanFrom (offset + byteLength (c :: cs.take n)) (cs.drop n) = .ok rest ∧
        ts = ⟨kind, ⟨offset, byteLength (c :: cs.take n)⟩⟩ :: rest := by
  rw [scanFrom, if_neg (by simp [hc])] at h
  rcases hnext : next c cs with ⟨_ | kind, n⟩
  · simp [hnext] at h
  · simp only [hnext] at h
    obtain ⟨rest, hrest, h⟩ := bind_eq_ok.mp h
    exact ⟨kind, n, rest, rfl, hrest, (Except.ok.inj h).symm⟩

theorem scanFrom_segments {text : List Char} {offset : Nat} {ts : List Token}
    (h : scanFrom offset text = .ok ts) : ∃ kinds, ts.map Token.kind = kinds ++ [.eof] ∧
      Segments text kinds ∧ ∀ m, .int m ∈ kinds → Word.Fits m := by
  cases htext : text with
  | nil =>
    rw [htext, scanFrom] at h
    cases h
    exact ⟨[], rfl, .nil, by simp⟩
  | cons c cs =>
    rw [htext] at h
    by_cases hc : isBlank c = true
    · rw [scanFrom, if_pos hc] at h
      obtain ⟨kinds, hts, hsegments, hfits⟩ := scanFrom_segments h
      exact ⟨kinds, hts, .blank hc hsegments, hfits⟩
    · obtain ⟨kind, n, rest, hnext, hrest, rfl⟩ := scanFrom_cons (by simpa using hc) h
      obtain ⟨kinds, hts, hsegments, hfits⟩ := scanFrom_segments hrest
      have hsplit : c :: cs = (c :: cs.take n) ++ cs.drop n := by simp
      refine ⟨kind :: kinds, by simp [hts], ?_, fun m hm => ?_⟩
      · rw [hsplit]
        refine .word (next_denotes hnext) (fun w' kind' hw' hinitial => ?_) hsegments
        rw [← hsplit] at hinitial
        have hlength := hinitial.length_le
        have hlongest := next_longest hnext hw' hinitial
        simp only [List.length_cons, List.length_take] at hlength ⊢
        omega
      · rcases List.mem_cons.mp hm with rfl | hm
        · exact next_int hnext
        · exact hfits m hm
termination_by text.length
decreasing_by all_goals (simp only [htext, List.length_drop, List.length_cons]; omega)

end LoopAudit.Token
