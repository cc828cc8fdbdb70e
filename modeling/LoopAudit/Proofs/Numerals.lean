import LoopAudit.Proofs.Lexemes
import LoopAudit.Proofs.Written

/-! Numbers in the text of a set. A number that no word holds is written in full, and a text with
such a number in it is not scanned: the text of a set is read only if all its numbers are words
other than the least. -/

namespace LoopAudit

open Fallible

namespace Token

variable {a b w ds cs text : List Char} {kind : TokenKind} {kinds : List TokenKind} {n : Nat}

theorem digit_not_mem_fixed {x : String} {c : Char} (h : (x, kind) ∈ fixedWords)
    (hc : c ∈ x.toList) : Decimal.isDigit c = false := by
  have hall : fixedWords.all (fun p => p.1.toList.all fun c => !Decimal.isDigit c) = true := by
    decide +kernel
  have hword := List.all_eq_true.mp (List.all_eq_true.mp hall _ h) c hc
  simpa using hword

theorem Denotes.digit_first {c : Char} (h : Denotes (a ++ c :: cs) kind)
    (hc : Decimal.isDigit c = true) (ha : ∀ d ∈ a.getLast?, isWordChar d = false) : a = [] := by
  cases hlast : a.getLast? with
  | none => exact List.getLast?_eq_none_iff.mp hlast
  | some d =>
    have hd : isWordChar d = false := ha d hlast
    have hmem : d ∈ a ++ c :: cs := List.mem_append_left _ (List.mem_of_getLast? hlast)
    generalize hw : a ++ c :: cs = w at h hmem
    cases h with
    | fixed hx =>
      have hdigit : c ∈ a ++ c :: cs := by simp
      rw [hw] at hdigit
      rw [digit_not_mem_fixed hx hdigit] at hc
      cases hc
    | name hx =>
      obtain ⟨e, es, hlist, hletter, hword⟩ := hx.1
      rw [hlist] at hmem
      rcases List.mem_cons.mp hmem with rfl | hmem
      · simp [isWordChar, hletter] at hd
      · rw [List.all_eq_true.mp hword d hmem] at hd
        cases hd
    | number hdigits =>
      have hdigit := List.all_eq_true.mp hdigits d hmem
      simp [isWordChar, hdigit] at hd

theorem Denotes.digits {c : Char} (h : Denotes (c :: cs) kind) (hc : Decimal.isDigit c = true) :
    (c :: cs).all Decimal.isDigit = true ∧ kind = .int (Decimal.value (c :: cs)) := by
  rcases denotes_cons.mp h with ⟨hletter, -⟩ | ⟨-, hcs, hkind⟩ | ⟨-, hdigit, -⟩
  · rw [isLetter_eq_false hc] at hletter
    cases hletter
  · rw [List.all_cons, hc, hcs]
    exact ⟨rfl, hkind⟩
  · rw [hc] at hdigit
    cases hdigit

theorem Segments.fits (h : Segments text kinds) (hfits : ∀ m, .int m ∈ kinds → Word.Fits m)
    (htext : text = a ++ (ds ++ b)) (ha : ∀ c ∈ a.getLast?, isWordChar c = false)
    (hb : ∀ c ∈ b.head?, Decimal.isDigit c = false) (hds : ds.all Decimal.isDigit = true)
    (hne : ds ≠ []) : Word.Fits (Decimal.value ds) := by
  obtain ⟨d, ds, rfl⟩ := List.exists_cons_of_ne_nil hne
  have hd : Decimal.isDigit d = true := by
    rw [List.all_cons, Bool.and_eq_true] at hds
    exact hds.1
  induction h generalizing a with
  | nil => simp at htext
  | @blank c text kinds hc _ ih =>
    cases a with
    | nil =>
      obtain ⟨rfl, -⟩ := List.cons.inj htext
      rw [isBlank_eq_false (by simp [isWordChar, hd])] at hc
      cases hc
    | cons e a =>
      refine ih hfits (fun c hc => ha c ?_) (List.cons.inj htext).2
      rw [List.getLast?_cons, hc]
      rfl
  | @word w text kind kinds hw hlongest _ ih =>
    have hkind : ∀ m, .int m = kind → Word.Fits m :=
      fun m hm => hfits m (hm ▸ List.mem_cons_self ..)
    have hkinds : ∀ m, .int m ∈ kinds → Word.Fits m :=
      fun m hm => hfits m (List.mem_cons_of_mem _ hm)
    rcases List.append_eq_append_iff.mp htext with ⟨a', rfl, htail⟩ | ⟨us, rfl, htail⟩
    · refine ih hkinds (fun c hc => ha c ?_) htail
      rw [List.getLast?_append, hc]
      rfl
    · cases us with
      | nil => exact ih (a := []) hkinds (by simp) htail.symm
      | cons u us =>
        obtain rfl : d = u := (List.cons.inj htail).1
        obtain rfl : a = [] := hw.digit_first hd ha
        rw [List.nil_append] at hw hlongest
        obtain ⟨hus, rfl⟩ := hw.digits hd
        -- Neither of the two runs of digits at the same place is longer than the other.
        have hprefix : d :: ds <+: d :: us ++ text := ⟨b, htail⟩
        have hprefix' : d :: us <+: d :: ds ++ b := ⟨text, htail.symm⟩
        have hlength := hlongest (d :: ds) _ (.number hds) hprefix
        have hlength' := length_le_takeWhile hus hprefix'
        have hrun : (d :: ds ++ b).takeWhile Decimal.isDigit = d :: ds := by
          rw [List.takeWhile_append_of_pos (List.all_eq_true.mp hds)]
          cases b with
          | nil => simp
          | cons e b => simp [hb e rfl]
        rw [hrun] at hlength'
        have hsame : d :: ds = d :: us :=
          (List.append_inj htail (Nat.le_antisymm hlength hlength')).1
        rw [hsame]
        exact hkind _ rfl

/-- The number stands in the text, with no word before it and no digit after it. -/
def Shows (s : String) (n : Nat) : Prop :=
  ∃ a b, s.toList = a ++ (Nat.toDigits 10 n ++ b) ∧ (∀ c ∈ a.getLast?, isWordChar c = false) ∧
    ∀ c ∈ b.head?, Decimal.isDigit c = false

theorem fits_of_shows {s : String} {ts : List Token} (hscan : scan s = .ok ts) (h : Shows s n) :
    Word.Fits n := by
  have ⟨kinds, _, hsegments, hfits⟩ := scanFrom_segments hscan
  have ⟨a, b, htext, ha, hb⟩ := h
  have hdigits : (Nat.toDigits 10 n).all Decimal.isDigit = true :=
    List.all_eq_true.mpr fun _ => Decimal.isDigit_of_mem_toDigits
  have hvalue := hsegments.fits hfits htext ha hb hdigits Nat.toDigits_ne_nil
  rwa [Decimal.value_toDigits] at hvalue

namespace Shows

variable {s t : String}

theorem isDigit_of_closers {c : Char} (h : c ∈ closers) : Decimal.isDigit c = false := by
  have hword := isWordChar_of_mem_closers h
  rw [isWordChar, Bool.or_eq_false_iff] at hword
  exact hword.2

theorem append (h : Shows s n) (ht : Breaks t.toList) : Shows (s ++ t) n := by
  have ⟨a, b, htext, ha, hb⟩ := h
  refine ⟨a, b ++ t.toList, by simp [htext], ha, fun c hc => ?_⟩
  cases b with
  | nil => exact isDigit_of_closers (ht c hc)
  | cons d b => exact hb c hc

theorem after {c : Char} (h : Shows s n) (cs : List Char) (ht : t.toList = cs ++ [c])
    (hc : isWordChar c = false) : Shows (t ++ s) n := by
  have ⟨a, b, htext, ha, hb⟩ := h
  refine ⟨t.toList ++ a, b, by simp [htext], fun d hd => ?_, hb⟩
  rw [List.getLast?_append] at hd
  cases hlast : a.getLast? with
  | none =>
    rw [hlast, ht, List.getLast?_concat] at hd
    obtain rfl : c = d := by simpa using hd
    exact hc
  | some e =>
    rw [hlast] at hd
    exact ha d (hlast ▸ hd)

theorem behind (h : Shows s n) (hs : Breaks s.toList) : Shows (t ++ s) n := by
  have ⟨a, b, htext, ha, hb⟩ := h
  refine ⟨t.toList ++ a, b, by simp [htext], fun d hd => ?_, hb⟩
  rw [List.getLast?_append] at hd
  cases hlast : a.getLast? with
  | none =>
    obtain rfl := List.getLast?_eq_none_iff.mp hlast
    obtain ⟨e, es, hes⟩ := List.exists_cons_of_ne_nil (Nat.toDigits_ne_nil (b := 10) (n := n))
    have hdigit : Decimal.isDigit e = true :=
      Decimal.isDigit_of_mem_toDigits (n := n) (hes ▸ List.mem_cons_self ..)
    have hclose : e ∈ closers := hs e (by rw [htext, hes]; rfl)
    rw [isDigit_of_closers hclose] at hdigit
    cases hdigit
  | some e =>
    rw [hlast] at hd
    exact ha d (hlast ▸ hd)

theorem intercalate {α : Type} {items : List α} {text : α → String} {i : α} {c : Char}
    (h : Shows (text i) n) (hi : i ∈ items) (cs : List Char) (ht : t.toList = cs ++ [c])
    (hc : isWordChar c = false) (hcloses : Closes t) :
    Shows (t.intercalate (items.map text)) n := by
  induction items with
  | nil => cases hi
  | cons j items ih =>
    cases items with
    | nil =>
      obtain rfl : i = j := by simpa using hi
      rwa [List.map_singleton, String.intercalate_singleton]
    | cons k items =>
      rw [List.map_cons, List.map_cons, String.intercalate_cons_cons]
      rcases List.mem_cons.mp hi with rfl | hi
      · rw [String.append_assoc]
        exact h.append hcloses.breaks_text
      · refine (ih hi).after ((text j).toList ++ cs) ?_ hc
        rw [String.toList_append, ht, List.append_assoc]

theorem decimal (k : Int) : Shows (Decimal.text k) k.natAbs := by
  have hdigits : (Nat.repr k.natAbs).toList = Nat.toDigits 10 k.natAbs := by
    rw [Nat.repr_eq_ofList_toDigits, String.toList_ofList]
  have hshows : Shows (Nat.repr k.natAbs) k.natAbs :=
    ⟨[], [], by rw [hdigits, List.append_nil, List.nil_append], nofun, nofun⟩
  unfold Decimal.text
  split_ifs
  · exact hshows.after [] rfl rfl
  · exact hshows

end Shows

end Token

open Token (Shows IsName Breaks Closes)

variable {V : String → Prop} {c : Constraint} {n : Nat} {m : Int}

def Relation.Fits : Relation → Prop
  | mod m => Word.Fits m
  | _ => True

instance : (r : Relation) → Decidable r.Fits
  | .mod m => inferInstanceAs (Decidable (Word.Fits m))
  | .eq => .isTrue trivial
  | .ge => .isTrue trivial

namespace Affine

variable {e : Affine} {t : String × Int} {ts : List (String × Int)}

theorem termText_shows (hx : IsName t.1) (h : t.2.natAbs ≠ 1) :
    Shows (termText t.1 t.2) t.2.natAbs := by
  obtain ⟨d, ds, hlist, hletter, -⟩ := hx.1
  have hdigit : Decimal.isDigit d = false := by
    rw [Bool.eq_false_iff]
    intro hdigit
    rw [Token.isLetter_eq_false hdigit] at hletter
    cases hletter
  have ⟨a, b, htext, ha, hb⟩ := Shows.decimal (t.2.natAbs : Int)
  rw [termText, if_neg h]
  rw [Int.natAbs_natCast] at htext
  refine ⟨a, b ++ t.1.toList, ?_, ha, fun c hc => ?_⟩
  · rw [String.toList_append, htext, List.append_assoc, List.append_assoc]
  cases b with
  | nil =>
    rw [List.nil_append, hlist] at hc
    obtain rfl : d = c := by simpa using hc
    exact hdigit
  | cons d b => exact hb c hc

theorem tailText_shows (hnames : ∀ t ∈ ts, IsName t.1) (ht : t ∈ ts) (h : t.2.natAbs ≠ 1) :
    Shows (tailText ts) t.2.natAbs := by
  induction ts with
  | nil => cases ht
  | cons u ts ih =>
    have ⟨hu, hnames⟩ := List.forall_mem_cons.mp hnames
    rw [tailText]
    rcases List.mem_cons.mp ht with rfl | ht
    · have hterm := termText_shows hu h
      refine .append ?_ breaks_tailText
      split_ifs
      · exact hterm.after [' ', '-'] rfl rfl
      · exact hterm.after [' ', '+'] rfl rfl
    · exact (ih hnames ht).behind breaks_tailText

theorem text_shows_term (hnames : ∀ t ∈ e.terms, IsName t.1) (ht : t ∈ e.terms)
    (h : t.2.natAbs ≠ 1) : Shows e.text t.2.natAbs := by
  obtain ⟨terms, k⟩ := e
  cases terms with
  | nil => cases ht
  | cons u ts =>
    have ⟨hu, hnames⟩ := List.forall_mem_cons.mp hnames
    rw [text]
    refine .append ?_ breaks_constantText
    rcases List.mem_cons.mp ht with rfl | ht
    · have hterm := termText_shows hu h
      refine .append ?_ breaks_tailText
      split_ifs
      · exact hterm.after [] rfl rfl
      · rwa [String.empty_append]
    · exact (tailText_shows hnames ht h).behind breaks_tailText

theorem text_shows_constant (h : e.constant ≠ 0) : Shows e.text e.constant.natAbs := by
  obtain ⟨terms, k⟩ := e
  cases terms with
  | nil => exact Shows.decimal k
  | cons t ts =>
    have hconstant : Shows (constantText k) k.natAbs := by
      unfold constantText
      split_ifs with hpos hneg
      · exact (Shows.decimal k).after [' ', '+'] rfl rfl
      · exact (Shows.decimal k.natAbs).after [' ', '-'] rfl rfl
      · exact absurd (show k = 0 by omega) h
    exact hconstant.behind breaks_constantText

theorem fits_of_natAbs {k : Int} (h : Word.Fits k.natAbs) : Word.Fits k ∧ k ≠ Word.least := by
  unfold Word.Fits Word.least Word.greatest at *
  omega

instance (e : Affine) : Decidable e.Moderate := inferInstanceAs (Decidable (_ ∧ _))

end Affine

namespace Constraint

theorem moderate_iff : c.Moderate ↔ c.form.Moderate ∧ c.relation.Fits := by
  refine ⟨fun h => ⟨h.form, ?_⟩, fun h => ⟨h.1, fun m hm => ?_⟩⟩
  · cases hr : c.relation with
    | eq => trivial
    | ge => trivial
    | mod m => exact h.modulus m hr
  · have hfits := h.2
    rwa [hm] at hfits

instance (c : Constraint) : Decidable c.Moderate := decidable_of_iff _ moderate_iff.symm

variable {e : Affine} {op : String}

theorem comparisonText_shows (h : Shows e.positivePart.text n ∨ Shows e.negativePart.text n) :
    Shows (comparisonText e op) n := by
  have hbreaks : Breaks (" " ++ op ++ " " ++ e.negativePart.text).toList := by
    rw [String.append_assoc, String.append_assoc]
    exact Token.closes_blank.breaks_text
  rw [comparisonText_eq]
  rcases h with h | h
  · exact h.append hbreaks
  · refine Shows.behind ?_ hbreaks
    exact h.after (c := ' ') (' ' :: op.toList) (by simp) rfl

theorem moderate_of_comparison (hnames : ∀ t ∈ e.terms, IsName t.1)
    (h : ∀ n, Shows (comparisonText e op) n → Word.Fits n) : e.Moderate := by
  refine ⟨fun t ht => Affine.fits_of_natAbs ?_, Affine.fits_of_natAbs ?_⟩
  · by_cases hone : t.2.natAbs = 1
    · rw [hone]
      decide
    · apply h
      apply comparisonText_shows
      by_cases hpos : 0 < t.2
      · refine .inl (Affine.text_shows_term (fun u hu => ?_) ?_ hone)
        · exact hnames u (List.mem_filter.mp hu).1
        · exact List.mem_filter.mpr ⟨ht, decide_eq_true hpos⟩
      · have hmem : (t.1, -t.2) ∈ e.negativePart.terms :=
          List.mem_map_of_mem (List.mem_filter.mpr ⟨ht, decide_eq_true hpos⟩)
        rw [← Int.natAbs_neg] at hone ⊢
        refine .inr (Affine.text_shows_term (t := (t.1, -t.2)) (fun u hu => ?_) hmem hone)
        obtain ⟨v, hv, rfl⟩ := List.mem_map.mp hu
        exact hnames v (List.mem_filter.mp hv).1
  · by_cases hzero : e.constant = 0
    · rw [hzero]
      decide
    · apply h
      apply comparisonText_shows
      by_cases hpos : 0 < e.constant
      · have hconstant : e.positivePart.constant = e.constant := max_eq_left hpos.le
        have hshows := Affine.text_shows_constant (e := e.positivePart) (by omega)
        rw [hconstant] at hshows
        exact .inl hshows
      · have hconstant : e.negativePart.constant = -e.constant := max_eq_left (by omega)
        have hshows := Affine.text_shows_constant (e := e.negativePart) (by omega)
        rw [hconstant, Int.natAbs_neg] at hshows
        exact .inr hshows

theorem modText_shows (e : Affine) (m : Int) : Shows (modText e m) m.natAbs := by
  have hmodulus : Shows (" mod " ++ (Decimal.text m ++ (" = " ++ Decimal.text (residue e m))))
      m.natAbs := by
    refine Shows.after (Shows.append (Shows.decimal m) ?_) [' ', 'm', 'o', 'd'] rfl rfl
    exact Closes.breaks_text ⟨_, _, rfl, by decide⟩
  have hbreaks : Breaks
      (" mod " ++ (Decimal.text m ++ (" = " ++ Decimal.text (residue e m)))).toList :=
    Closes.breaks_text ⟨_, _, rfl, by decide⟩
  rcases shown_cases e m with ⟨x, -, -, htext⟩ | ⟨-, htext⟩
  · rw [htext]
    exact hmodulus.behind hbreaks
  · rw [htext]
    exact hmodulus.behind hbreaks

theorem moderate_of_text (hc : c.IsNormal V) (hV : ∀ x, V x → IsName x)
    (h : ∀ n, Shows c.text n → Word.Fits n) : c.Moderate := by
  have hnames : ∀ t ∈ c.form.terms, IsName t.1 := fun t ht =>
    hV t.1 (hc.form.within t.1 (List.mem_map_of_mem ht))
  unfold text at h
  cases hr : c.relation with
  | eq =>
    rw [hr] at h
    exact ⟨moderate_of_comparison hnames h, by simp [hr]⟩
  | ge =>
    rw [hr] at h
    exact ⟨moderate_of_comparison hnames h, by simp [hr]⟩
  | mod m =>
    rw [hr] at h
    have hm : Word.Fits m := (Affine.fits_of_natAbs (h _ (modText_shows c.form m))).1
    have hbelow {k : Int} (hnonneg : 0 ≤ k) (hlt : k < m) : Word.Fits k ∧ k ≠ Word.least := by
      unfold Word.Fits Word.least Word.greatest at *
      omega
    have ⟨hone, hreduced⟩ := hc.reduced_eq hr
    have ⟨_, hnonneg, hlt⟩ := hc.mod_range hr
    refine ⟨⟨fun t ht => ?_, hbelow hnonneg hlt⟩, fun m' hm' => ?_⟩
    · have hrange := mem_reduced_range (zero_lt_one.trans hone) (hreduced.symm ▸ ht)
      exact hbelow hrange.1.le hrange.2
    · obtain rfl : m = m' := by simpa [hr] using hm'
      exact hm

end Constraint

namespace IntegerSet

variable {s : IntegerSet} {b : Conjunction}

def Moderate (s : IntegerSet) : Prop := ∀ b ∈ s.pieces, ∀ c ∈ b.constraints, c.Moderate

instance (s : IntegerSet) : Decidable s.Moderate :=
  inferInstanceAs (Decidable (∀ b ∈ s.pieces, ∀ c ∈ b.constraints, c.Moderate))

theorem text_shows (hb : b ∈ s.pieces) (hc : c ∈ b.constraints) (h : Shows c.text n) :
    Shows s.text n := by
  have hsome {b : Conjunction} (hc : c ∈ b.constraints) : ¬ b.constraints.isEmpty = true := by
    rw [List.isEmpty_iff]
    exact List.ne_nil_of_mem hc
  have hpiece : Shows (pieceText b) n := by
    rw [pieceText, if_neg (hsome hc)]
    exact h.intercalate hc [' ', 'a', 'n', 'd'] rfl rfl ⟨_, _, rfl, by decide⟩
  have hframe {p : String} (hp : Shows p n) : Shows (": " ++ p ++ " ") n :=
    (hp.after [':'] rfl rfl).append Token.closes_blank.breaks
  have hbody : Shows s.bodyText n := by
    unfold bodyText
    split
    · next hnone =>
      rw [hnone] at hb
      cases hb
    · next b' hone =>
      obtain rfl : b = b' := by simpa [hone] using hb
      rw [if_neg (hsome hc)]
      exact hframe hpiece
    · exact hframe (hpiece.intercalate hb [' ', 'o', 'r'] rfl rfl ⟨_, _, rfl, by decide⟩)
  have hclose : Breaks "\x7d".toList := Closes.breaks ⟨_, _, rfl, by decide⟩
  unfold text
  refine .append ?_ hclose
  split_ifs
  · exact hbody.after (c := ' ') (s.space.paramsText.toList ++ ['\x7b']) (by simp) rfl
  · refine hbody.after (c := ' ') (s.space.paramsText.toList ++
      ("\x7b [" ++ ", ".intercalate s.space.dims ++ "]").toList) ?_ rfl
    simp

theorem moderate_of_scan (hs : s.WellFormed) (hnames : ∀ x ∈ s.space.names, IsName x)
    {ts : List Token} (h : Token.scan s.text = .ok ts) : s.Moderate := by
  intro b hb c hc
  have ⟨hwf, hspace⟩ := hs.pieces b hb
  refine Constraint.moderate_of_text (hwf.constraint hc) (fun x hx => hnames x (hspace ▸ hx)) ?_
  exact fun n hn => Token.fits_of_shows h (text_shows hb hc hn)

end IntegerSet

end LoopAudit
