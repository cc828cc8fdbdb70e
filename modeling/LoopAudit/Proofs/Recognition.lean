import LoopAudit.Proofs.Formula
import LoopAudit.Proofs.Rereading

/-! What the success of a reader says about the tokens that it took. -/

namespace LoopAudit

open Fallible Formula

namespace Reading

variable {α β τ : Type} {kind : TokenKind} {ts rest : List Token} {span : Span}
  {tokens : τ → List TokenKind} {R : τ → α → Prop}

/-- Whatever the reader returns is related to a tree that the tokens it took spell. -/
def Recognizes (r : Reader α) (tokens : τ → List TokenKind) (R : τ → α → Prop) : Prop :=
  ∀ ts a rest, r ts = .ok (a, rest) →
    ∃ t, ts.map Token.kind = tokens t ++ rest.map Token.kind ∧ R t a

theorem eat?_eq_some : eat? kind ts = some (span, rest) ↔ ts = ⟨kind, span⟩ :: rest := by
  rcases ts with _ | ⟨⟨k, s⟩, ts⟩
  · simp [eat?]
  · by_cases hk : k = kind <;> simp [eat?, hk]

theorem expect_eq_ok {what : String} :
    expect kind what ts = .ok (span, rest) ↔ ts = ⟨kind, span⟩ :: rest := by
  rw [← eat?_eq_some, expect]
  rcases eat? kind ts with _ | found <;> simp

theorem nextIs_iff : nextIs kind ts = true ↔ ∃ span rest, ts = ⟨kind, span⟩ :: rest := by
  rcases ts with _ | ⟨⟨k, s⟩, ts⟩
  · simp [nextIs]
  · simp [nextIs]

theorem loop_induction {step : α → List Token → Except SyntaxError (Option (α × List Token))}
    {M : α → List Token → Prop} {a b : α} (hdone : M b rest)
    (hstep : ∀ a ts a' ts', step a ts = .ok (some (a', ts')) → M a' ts' → M a ts)
    (h : loop step a ts = .ok (b, rest)) : M a ts := by
  suffices hiterate : ∀ n a ts, iterate step n a ts = .ok (b, rest) → M a ts from hiterate _ a ts h
  intro n
  induction n with
  | zero =>
    rintro a ts ⟨⟩
    exact hdone
  | succ n ih =>
    intro a ts h
    have ⟨o, ho, htail⟩ := bind_eq_ok.mp h
    rcases o with _ | ⟨a', ts'⟩
    · cases htail
      exact hdone
    · exact hstep a ts a' ts' ho (ih a' ts' htail)

theorem listReader_recognizes {sep : TokenKind} {item : Reader α} {start : α → β}
    {push : β → α → β} {b : β} (hitem : Recognizes item tokens R)
    (h : listReader sep item start push ts = .ok (b, rest)) :
    ∃ (s : Series τ) (a : α) (as : List α), R s.first a ∧ List.Forall₂ R s.rest as ∧
      b = as.foldl push (start a) ∧
        ts.map Token.kind = s.tokens sep tokens ++ rest.map Token.kind := by
  have ⟨⟨a, us⟩, ha, hloop⟩ := bind_eq_ok.mp h
  have ⟨t, hus, hta⟩ := hitem ts a us ha
  have htail : ∃ (xs : List τ) (as : List α), List.Forall₂ R xs as ∧
      b = as.foldl push (start a) ∧ us.map Token.kind =
        (xs.flatMap fun x => sep :: tokens x) ++ rest.map Token.kind := by
    refine loop_induction (M := fun c us => ∃ (xs : List τ) (as : List α), List.Forall₂ R xs as ∧
      b = as.foldl push c ∧ us.map Token.kind =
        (xs.flatMap fun x => sep :: tokens x) ++ rest.map Token.kind) ⟨[], [], .nil, rfl, rfl⟩ ?_
      hloop
    rintro c us c' vs hstep ⟨xs, as, hall, rfl, hvs⟩
    unfold listStep at hstep
    rcases heat : eat? sep us with _ | ⟨span, us'⟩
    · simp [heat] at hstep
    · simp only [heat] at hstep
      have ⟨⟨a', ws⟩, ha', hpush⟩ := bind_eq_ok.mp hstep
      obtain ⟨rfl, rfl⟩ : push c a' = c' ∧ ws = vs := by simpa using hpush
      have ⟨x, hx, hxa⟩ := hitem us' a' ws ha'
      rw [eat?_eq_some.mp heat]
      refine ⟨x :: xs, a' :: as, .cons hxa hall, rfl, ?_⟩
      simp [hx, hvs]
  have ⟨xs, as, hall, hb, hkinds⟩ := htail
  refine ⟨⟨t, xs⟩, a, as, hta, hall, hb, ?_⟩
  rw [hus, hkinds, Series.tokens, List.append_assoc]

theorem collect_recognizes {sep : TokenKind} {item : Reader α} {found : List α}
    (hitem : Recognizes item tokens R)
    (h : collect sep item ts = .ok (found, rest)) :
    ∃ s : Series τ, List.Forall₂ R s.toList found ∧
      ts.map Token.kind = s.tokens sep tokens ++ rest.map Token.kind := by
  have ⟨s, a, as, ha, has, hfound, hts⟩ := listReader_recognizes hitem h
  have hpush (as bs : List α) : as.foldl (fun as a => as ++ [a]) bs = bs ++ as := by
    induction as generalizing bs with
    | nil => simp
    | cons a as ih => simp [ih]
  refine ⟨s, ?_, hts⟩
  rw [hfound, hpush]
  exact .cons ha has

theorem exists_of_forall₂ {xs : List τ} {as : List α} (h : List.Forall₂ R xs as) {a : α}
    (ha : a ∈ as) : ∃ x ∈ xs, R x a := by
  induction h with
  | nil => cases ha
  | cons hR _ ih =>
    rcases List.mem_cons.mp ha with rfl | ha
    · exact ⟨_, List.mem_cons_self .., hR⟩
    · have ⟨x, hx, hR⟩ := ih ha
      exact ⟨x, List.mem_cons_of_mem _ hx, hR⟩

end Reading

end LoopAudit
