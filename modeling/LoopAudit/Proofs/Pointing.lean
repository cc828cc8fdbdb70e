import LoopAudit.Expr.Reader
import LoopAudit.Proofs.Layout
import LoopAudit.Proofs.Recognition

/-! Where errors point. A reader names only places of the tokens that it was given, so a text that
cannot be read is refused at a place inside it. -/

namespace LoopAudit

namespace Reading

variable {α β : Type} {n : Nat} {kind : TokenKind} {ts rest : List Token} {span : Span}
  {P : α → Prop} {Q : β → Prop} {r : Reader α} {f : α × List Token → Except SyntaxError β}
  {step : α → List Token → Except SyntaxError (Option (α × List Token))}

def TokensWithin (n : Nat) (ts : List Token) : Prop := ∀ t ∈ ts, t.span.Within n

theorem tokensWithin_cons {t : Token} :
    TokensWithin n (t :: ts) ↔ t.span.Within n ∧ TokensWithin n ts := List.forall_mem_cons

def Points (n : Nat) (P : α → Prop) : Except SyntaxError α → Prop
  | .ok a => P a
  | .error e => e.span.Within n

theorem Points.bind {x : Except SyntaxError α} {f : α → Except SyntaxError β}
    (hx : Points n P x) (hf : ∀ a, P a → Points n Q (f a)) : Points n Q (x >>= f) := by
  cases x with
  | error e => exact hx
  | ok a => exact hf a hx

theorem Points.error_within {x : Except SyntaxError α} {e : SyntaxError} (hx : Points n P x)
    (h : x = .error e) : e.span.Within n := by
  subst h
  exact hx

def Confined (n : Nat) (r : Reader α) : Prop :=
  ∀ ts, TokensWithin n ts → Points n (fun p => TokensWithin n p.2) (r ts)

def Locates (n : Nat) (place : α → Span) (r : Reader α) : Prop :=
  ∀ ts, TokensWithin n ts →
    Points n (fun p => (place p.1).Within n ∧ TokensWithin n p.2) (r ts)

def ConfinedStep (n : Nat) (step : α → List Token → Except SyntaxError (Option (α × List Token))) :
    Prop :=
  ∀ a ts, TokensWithin n ts → Points n (fun o => ∀ p ∈ o, TokensWithin n p.2) (step a ts)

theorem Confined.andThen (hr : Confined n r) (hts : TokensWithin n ts)
    (hf : ∀ a rest, TokensWithin n rest → Points n Q (f (a, rest))) : Points n Q (r ts >>= f) :=
  (hr ts hts).bind fun p hp => hf p.1 p.2 hp

theorem Locates.andThen {place : α → Span} (hr : Locates n place r) (hts : TokensWithin n ts)
    (hf : ∀ a rest, (place a).Within n → TokensWithin n rest → Points n Q (f (a, rest))) :
    Points n Q (r ts >>= f) :=
  (hr ts hts).bind fun p hp => hf p.1 p.2 hp.1 hp.2

theorem points_none :
    Points n (fun o => ∀ p ∈ o, TokensWithin n p.2) (.ok (none : Option (α × List Token))) := by
  intro p hp
  cases hp

theorem points_some {a : α} (hrest : TokensWithin n rest) :
    Points n (fun o => ∀ p ∈ o, TokensWithin n p.2) (.ok (some (a, rest))) := by
  rintro p ⟨⟩
  exact hrest

theorem spanOf_within (hts : TokensWithin n ts) : (spanOf ts).Within n := by
  cases ts with
  | nil => exact Nat.zero_le n
  | cons t ts => exact (tokensWithin_cons.mp hts).1

theorem spanBefore_within (hts : TokensWithin n ts) : (spanBefore ts rest).Within n :=
  spanOf_within fun t ht => hts t (List.mem_of_mem_drop ht)

theorem eat?_within (hts : TokensWithin n ts) (h : eat? kind ts = some (span, rest)) :
    span.Within n ∧ TokensWithin n rest := by
  rw [eat?_eq_some.mp h] at hts
  exact tokensWithin_cons.mp hts

theorem expect_locates {what : String} : Locates n id (expect kind what) := by
  intro ts hts
  unfold expect
  split
  · next h => exact eat?_within hts h
  · exact spanOf_within hts

theorem expectName_confined : Confined n expectName := by
  intro ts hts
  unfold expectName
  split
  · exact (tokensWithin_cons.mp hts).2
  · exact spanOf_within hts

theorem expectEnd_points (hts : TokensWithin n ts) : Points n (fun _ => True) (expectEnd ts) := by
  unfold expectEnd
  split_ifs
  · trivial
  · exact spanOf_within hts

theorem ConfinedStep.loop {a : α} (hstep : ConfinedStep n step) : Confined n (loop step a) := by
  intro ts
  suffices h : ∀ m a ts, TokensWithin n ts →
      Points n (fun p => TokensWithin n p.2) (iterate step m a ts) from h _ a ts
  intro m
  induction m with
  | zero => exact fun a ts hts => hts
  | succ m ih =>
    intro a ts hts
    refine (hstep a ts hts).bind fun o ho => ?_
    rcases o with _ | ⟨b, rest⟩
    · exact hts
    · exact ih b rest (ho _ rfl)

theorem listReader_confined {sep : TokenKind} {start : α → β} {push : β → α → β}
    (hr : Confined n r) : Confined n (listReader sep r start push) := by
  intro ts hts
  refine hr.andThen hts fun a us hus => ConfinedStep.loop ?_ us hus
  intro b vs hvs
  unfold listStep
  split
  · exact points_none
  · next h => exact hr.andThen (eat?_within hvs h).2 fun c rest hrest => points_some hrest

theorem collect_confined {sep : TokenKind} (hr : Confined n r) : Confined n (collect sep r) := by
  unfold collect
  exact listReader_confined hr

end Reading

namespace IntegerSet.Reader

open Reading

variable {n : Nat} {space : Space} {inner : Reader Affine} {e f : Affine} {ts us : List Token}
  {span : Span}

theorem located_points {α : Type} {r : Except SetError α} (hspan : span.Within n) :
    Points n (fun _ => True) (located span r) := by
  cases r with
  | error _ => exact hspan
  | ok _ => trivial

theorem factor_confined (hinner : Confined n inner) : Confined n (factor space inner) := by
  intro ts
  induction ts with
  | nil => exact fun hts => spanOf_within hts
  | cons t ts ih =>
    intro hts
    obtain ⟨ht, hrest⟩ := tokensWithin_cons.mp hts
    unfold factor
    split
    · next heq =>
      obtain ⟨-, rfl⟩ := List.cons.inj heq
      exact hrest
    · next heq =>
      obtain ⟨rfl, rfl⟩ := List.cons.inj heq
      split_ifs
      · exact hrest
      · exact ht
    · next heq =>
      obtain ⟨rfl, rfl⟩ := List.cons.inj heq
      refine (ih hrest).bind fun p hp => ?_
      exact (located_points ht).bind fun _ _ => hp
    · next heq =>
      obtain ⟨-, rfl⟩ := List.cons.inj heq
      refine hinner.andThen hrest fun e us hus => ?_
      exact expect_locates.andThen hus fun _ vs _ hvs => hvs
    · exact ht

theorem nextFactor?_within (hts : TokensWithin n ts) (h : nextFactor? e ts = some us) :
    TokensWithin n us := by
  unfold nextFactor? at h
  split_ifs at h
  · cases h
    exact hts
  · obtain ⟨⟨span, rest⟩, heat, rfl⟩ := Option.map_eq_some_iff.mp h
    exact (eat?_within hts heat).2

theorem multiply_points (hspan : span.Within n) :
    Points n (fun _ => True) (multiply span e f) := by
  unfold multiply
  split_ifs
  · exact located_points hspan
  · exact located_points hspan
  · exact hspan

theorem product_confined (hinner : Confined n inner) : Confined n (product space inner) := by
  intro ts hts
  refine (factor_confined hinner).andThen hts fun e us hus => ConfinedStep.loop ?_ us hus
  intro e us hus
  unfold productStep
  split
  · exact points_none
  · next h =>
    have hvs := nextFactor?_within hus h
    refine (factor_confined hinner).andThen hvs fun f rest hrest => ?_
    exact (multiply_points (spanOf_within hvs)).bind fun _ _ => points_some hrest

theorem sum_confined (hinner : Confined n inner) : Confined n (sum space inner) := by
  intro ts hts
  refine (product_confined hinner).andThen hts fun e us hus => ConfinedStep.loop ?_ us hus
  intro e us hus
  unfold sumStep
  split
  · next h =>
    obtain ⟨hspan, hvs⟩ := eat?_within hus h
    refine (product_confined hinner).andThen hvs fun f rest hrest => ?_
    exact (located_points hspan).bind fun _ _ => points_some hrest
  · next h =>
    obtain ⟨hspan, hvs⟩ := eat?_within hus h
    refine (product_confined hinner).andThen hvs fun f rest hrest => ?_
    exact (located_points hspan).bind fun _ _ => points_some hrest
  · exact points_none

theorem affine_confined : Confined n (affine space) := by
  suffices h : ∀ depth, Confined n (affineWithin space depth) from fun ts => h _ ts
  intro depth
  induction depth with
  | zero => exact fun ts hts => spanOf_within hts
  | succ depth ih => exact sum_confined ih

theorem comparisons_confined : Confined n (comparisons space e) := by
  intro ts hts
  refine Confined.andThen (ConfinedStep.loop ?_) hts fun p rest hrest => ?_
  · intro p us hus
    rcases us with _ | ⟨⟨kind, span⟩, us⟩
    · exact points_none
    · obtain ⟨ht, hus⟩ := tokensWithin_cons.mp hus
      unfold chainStep
      simp only
      split
      · exact points_none
      · refine affine_confined.andThen hus fun right rest hrest => ?_
        exact (located_points ht).bind fun _ _ => points_some hrest
  · simp only
    split_ifs
    · exact spanOf_within hrest
    · exact hrest

theorem equalsSign_locates : Locates n id equalsSign := by
  intro ts hts
  unfold equalsSign
  split
  · next h => exact eat?_within hts h
  · next h => exact eat?_within hts h
  · exact spanOf_within hts

theorem congruenceTail_confined : Confined n (congruenceTail space e) := by
  intro ts hts
  unfold congruenceTail
  split
  · obtain ⟨ht, hus⟩ := tokensWithin_cons.mp hts
    split_ifs
    · refine equalsSign_locates.andThen hus fun _ vs _ hvs => ?_
      refine affine_confined.andThen hvs fun f rest hrest => ?_
      exact (located_points (spanOf_within hvs)).bind fun _ _ => hrest
    · exact ht
  · exact spanOf_within hts

theorem chain_confined : Confined n (chain space) := by
  intro ts hts
  refine affine_confined.andThen hts fun e us hus => ?_
  simp only
  split
  · next h => exact congruenceTail_confined _ (eat?_within hus h).2
  · next h => exact congruenceTail_confined _ (eat?_within hus h).2
  · exact comparisons_confined us hus

theorem conjunct_confined : Confined n (conjunct space) := by
  intro ts hts
  unfold conjunct
  split
  · next h => exact (eat?_within hts h).2
  · next h => exact (eat?_within hts h).2
  · exact chain_confined.andThen hts fun cs rest hrest => hrest

theorem conjunction_confined : Confined n (conjunction space) :=
  listReader_confined conjunct_confined

theorem disjunction_confined : Confined n (disjunction space) :=
  collect_confined conjunction_confined

theorem nameList_locates : Locates n Prod.snd nameList := by
  intro ts hts
  refine expect_locates.andThen hts fun _ us _ hus => ?_
  simp only
  split_ifs
  · exact expect_locates.andThen hus fun span rest hspan hrest => ⟨hspan, hrest⟩
  · refine (collect_confined expectName_confined).andThen hus fun names vs hvs => ?_
    exact expect_locates.andThen hvs fun span rest hspan hrest => ⟨hspan, hrest⟩

theorem parameters_confined : Confined n parameters := by
  intro ts hts
  unfold parameters
  split_ifs
  · refine nameList_locates.andThen hts fun _ us _ hus => ?_
    exact expect_locates.andThen hus fun _ rest _ hrest => hrest
  · exact hts

theorem dimensions_locates (hspan : span.Within n) : Locates n Prod.snd (dimensions span) := by
  intro ts hts
  unfold dimensions
  split_ifs
  · exact nameList_locates ts hts
  · exact ⟨hspan, hts⟩

theorem body_confined : Confined n (body space) := by
  intro ts hts
  unfold body
  split
  · exact hts
  · next h =>
    refine disjunction_confined.andThen (eat?_within hts h).2 fun found rest hrest => ?_
    exact (located_points (spanBefore_within hts)).bind fun _ _ => hrest

theorem set_confined : Confined n set := by
  intro ts hts
  refine parameters_confined.andThen hts fun params ts hts => ?_
  refine expect_locates.andThen hts fun opening ts hopening hts => ?_
  -- A fault of the names is reported at the last bracket, or at the brace where there is none.
  refine (dimensions_locates hopening).andThen hts fun dims ts hlast hts => ?_
  refine (located_points hlast).bind fun space _ => ?_
  refine body_confined.andThen hts fun s ts hts => ?_
  refine expect_locates.andThen hts fun _ ts _ hts => ?_
  exact (expectEnd_points hts).bind fun _ _ => hts

end IntegerSet.Reader

namespace Expr.Reader

open Reading

variable {n : Nat} {inner : Reader Expr}

theorem bracketed_locates {close : TokenKind} {what : String} (hinner : Confined n inner) :
    Locates n Prod.snd (bracketed inner close what) := by
  intro ts hts
  unfold bracketed
  split_ifs
  · exact expect_locates.andThen hts fun span rest hspan hrest => ⟨hspan, hrest⟩
  · refine (collect_confined hinner).andThen hts fun es us hus => ?_
    exact expect_locates.andThen hus fun span rest hspan hrest => ⟨hspan, hrest⟩

theorem named_confined {name : String} (hinner : Confined n inner) :
    Confined n (named inner name) := by
  intro ts hts
  unfold named
  split
  · next h =>
    refine (bracketed_locates hinner).andThen (eat?_within hts h).2 fun p rest hspan hrest => ?_
    simp only
    split_ifs
    · exact hspan
    · exact hrest
  · next h =>
    exact (bracketed_locates hinner).andThen (eat?_within hts h).2 fun p rest _ hrest => hrest
  · exact hts

theorem unary_confined (hinner : Confined n inner) : Confined n (unary inner) := by
  intro ts
  induction ts with
  | nil => exact fun hts => spanOf_within hts
  | cons t ts ih =>
    intro hts
    obtain ⟨ht, hrest⟩ := tokensWithin_cons.mp hts
    unfold unary
    split
    · next heq =>
      obtain ⟨-, rfl⟩ := List.cons.inj heq
      exact (ih hrest).bind fun p hp => hp
    · next heq =>
      obtain ⟨-, rfl⟩ := List.cons.inj heq
      exact hrest
    · next heq =>
      obtain ⟨-, rfl⟩ := List.cons.inj heq
      exact named_confined hinner _ hrest
    · next heq =>
      obtain ⟨-, rfl⟩ := List.cons.inj heq
      refine hinner.andThen hrest fun e us hus => ?_
      exact expect_locates.andThen hus fun _ vs _ hvs => hvs
    · exact ht

theorem productStep_confined (hinner : Confined n inner) :
    ConfinedStep n (productStep inner) := by
  intro factors ts hts
  unfold productStep
  split
  · have hus := (tokensWithin_cons.mp hts).2
    exact (unary_confined hinner).andThen hus fun e rest hrest => points_some hrest
  · have hus := (tokensWithin_cons.mp hts).2
    exact (unary_confined hinner).andThen hus fun e rest hrest => points_some hrest
  · have hus := (tokensWithin_cons.mp hts).2
    exact (unary_confined hinner).andThen hus fun e rest hrest => points_some hrest
  · exact (tokensWithin_cons.mp hts).1
  · exact points_none

theorem product_confined (hinner : Confined n inner) : Confined n (product inner) := by
  intro ts hts
  refine (unary_confined hinner).andThen hts fun first us hus => ?_
  exact (productStep_confined hinner).loop.andThen hus fun factors rest hrest => hrest

theorem sumStep_confined (hinner : Confined n inner) : ConfinedStep n (sumStep inner) := by
  intro terms ts hts
  unfold sumStep
  split
  · have hus := (tokensWithin_cons.mp hts).2
    exact (product_confined hinner).andThen hus fun e rest hrest => points_some hrest
  · have hus := (tokensWithin_cons.mp hts).2
    exact (product_confined hinner).andThen hus fun e rest hrest => points_some hrest
  · exact points_none

theorem sum_confined (hinner : Confined n inner) : Confined n (sum inner) := by
  intro ts hts
  refine (product_confined hinner).andThen hts fun first us hus => ?_
  exact (sumStep_confined hinner).loop.andThen hus fun terms rest hrest => hrest

theorem expr_confined : Confined n expr := by
  suffices h : ∀ depth, Confined n (exprWithin depth) from fun ts => h _ ts
  intro depth
  induction depth with
  | zero => exact fun ts hts => spanOf_within hts
  | succ depth ih => exact sum_confined ih

end Expr.Reader

section Texts

open Reading

variable {src : String}

theorem scan_points :
    Points src.utf8ByteSize (TokensWithin src.utf8ByteSize) (Token.scan src) := by
  cases hscan : Token.scan src with
  | error e => exact Token.scan_error hscan
  | ok ts =>
    obtain ⟨words, rfl, hlayout⟩ := Token.scan_layout hscan
    intro t ht
    rcases List.mem_append.mp ht with ht | ht
    · have hwithin := hlayout.within ht
      rwa [List.nil_append, Token.byteLength_toList] at hwithin
    · rw [List.mem_singleton.mp ht]
      exact Nat.le_refl _

/-- Errors point into the text. Its tokens stand at their spellings, one after the other, and
outside them there are blanks only. -/
theorem spans_in_text (src : String) :
    (∀ e, IntegerSet.parse src = .error e → e.span.Within src.utf8ByteSize) ∧
    (∀ e, Expr.parse src = .error e → e.span.Within src.utf8ByteSize) ∧
    ∀ tokens, Token.scan src = .ok tokens → ∃ words,
      tokens = words ++ [⟨.eof, ⟨src.utf8ByteSize, 0⟩⟩] ∧
      (∀ t ∈ words, 0 < t.span.length ∧ t.span.Within src.utf8ByteSize ∧
        ∃ w, Token.Denotes w t.kind ∧ t.span.bytes src = w.utf8Encode) ∧
      (words.Pairwise fun s t => s.span.offset < t.span.offset ∧
        s.span.offset + s.span.length ≤ t.span.offset) ∧
      ∀ i (hi : i < src.toByteArray.size), (∀ t ∈ words, ¬ t.span.Covers i) →
        src.toByteArray[i] ∈ Token.blankBytes := by
  refine ⟨fun e h => ?_, fun e h => ?_, fun tokens h => ?_⟩
  · have hset : Points src.utf8ByteSize (fun _ => True) (IntegerSet.parse src) :=
      scan_points.bind fun _ hts => IntegerSet.Reader.set_confined.andThen hts fun _ _ _ => trivial
    exact hset.error_within h
  · have hexpr : Points src.utf8ByteSize (fun _ => True) (Expr.parse src) :=
      scan_points.bind fun _ hts => Expr.Reader.expr_confined.andThen hts fun _ _ hrest =>
        (expectEnd_points hrest).bind fun _ _ => trivial
    exact hexpr.error_within h
  · obtain ⟨words, rfl, hlayout⟩ := Token.scan_layout h
    refine ⟨words, rfl, fun t ht => ⟨hlayout.length_pos ht, ?_, ?_⟩, ?_, fun i hi hfree => ?_⟩
    · have hwithin := hlayout.within ht
      rwa [List.nil_append, Token.byteLength_toList] at hwithin
    · obtain ⟨before, w, after, htext, hw, hspan⟩ := hlayout.exists_word ht
      exact ⟨w, hw, hspan ▸ Token.bytes_word htext⟩
    · refine hlayout.pairwise.imp_of_mem fun hs _ hle => ⟨?_, hle⟩
      have hpos := hlayout.length_pos hs
      omega
    · have hsize : i < Token.byteLength ([] ++ src.toList) := by
        rwa [List.nil_append, Token.byteLength_toList]
      obtain ⟨before, c, after, htext, hc, rfl⟩ := hlayout.exists_blank (Nat.zero_le i) hsize hfree
      exact Token.getElem_blank htext hc hi

theorem misread_spans :
    (IntegerSet.parse "\x7b [i] : 0 <= k \x7d" = .error ⟨"unknown identifier 'k'", ⟨13, 1⟩⟩ ∧
      (⟨13, 1⟩ : Span).Within "\x7b [i] : 0 <= k \x7d".utf8ByteSize) ∧
    IntegerSet.parse "\x7b [é] \x7d" = .error ⟨"unexpected input 'é'", ⟨3, 2⟩⟩ ∧
      (⟨3, 2⟩ : Span).Within "\x7b [é] \x7d".utf8ByteSize := by
  have hname : IntegerSet.parse "\x7b [i] : 0 <= k \x7d" =
      .error ⟨"unknown identifier 'k'", ⟨13, 1⟩⟩ := by decide +kernel
  have hchar : IntegerSet.parse "\x7b [é] \x7d" = .error ⟨"unexpected input 'é'", ⟨3, 2⟩⟩ := by
    decide +kernel
  exact ⟨⟨hname, (spans_in_text _).1 _ hname⟩, hchar, (spans_in_text _).1 _ hchar⟩

end Texts

end LoopAudit
