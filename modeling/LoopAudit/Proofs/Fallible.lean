import Mathlib.Data.List.Forall2

/-! Computations that may fail: what a success of a sequence, a fold or a traversal says about its
parts. -/

namespace LoopAudit.Fallible

variable {ε α β : Type}

theorem bind_eq_ok {x : Except ε α} {f : α → Except ε β} {b : β} :
    (x >>= f) = .ok b ↔ ∃ a, x = .ok a ∧ f a = .ok b := by
  cases x <;> simp [bind, Except.bind]

theorem bind_eq_error {x : Except ε α} {f : α → Except ε β} {e : ε} :
    (x >>= f) = .error e ↔ x = .error e ∨ ∃ a, x = .ok a ∧ f a = .error e := by
  cases x <;> simp [bind, Except.bind]

theorem map_eq_ok {x : Except ε α} {f : α → β} {b : β} :
    f <$> x = .ok b ↔ ∃ a, x = .ok a ∧ f a = b := by
  cases x <;> simp [Functor.map, Except.map]

theorem mapError_eq_ok {ε' : Type} {x : Except ε α} {f : ε → ε'} {a : α} :
    x.mapError f = .ok a ↔ x = .ok a := by
  cases x <;> simp [Except.mapError]

theorem ite_eq_ok {c : Prop} [Decidable c] {e : ε} :
    (if c then .ok () else .error e) = (.ok () : Except ε Unit) ↔ c := by
  by_cases h : c <;> simp [h]

theorem exists_of_any {x : Except ε α} {p : α → Bool} (h : x.toOption.any p = true) :
    ∃ a, x = .ok a ∧ p a = true := by
  cases x with
  | error _ => cases h
  | ok a => exact ⟨a, rfl, h⟩

theorem mapM_eq_ok {f : α → Except ε β} {l : List α} {l' : List β} :
    l.mapM f = .ok l' ↔ List.Forall₂ (fun a b => f a = .ok b) l l' := by
  induction l generalizing l' with
  | nil => simp [pure, Except.pure, eq_comm]
  | cons a l ih =>
    rw [List.mapM_cons, List.forall₂_cons_left_iff]
    simp only [bind_eq_ok, pure, Except.pure, Except.ok.injEq, ih]
    constructor
    · rintro ⟨b, hb, bs, hbs, rfl⟩
      exact ⟨b, bs, hb, hbs, rfl⟩
    · rintro ⟨b, bs, hb, hbs, rfl⟩
      exact ⟨b, hb, bs, hbs, rfl⟩

theorem mapM_eq_ok_map {f : α → Except ε β} {P : α → Prop} {g : α → β} {l : List α} {l' : List β}
    (hf : ∀ a b, f a = .ok b ↔ P a ∧ g a = b) :
    l.mapM f = .ok l' ↔ (∀ a ∈ l, P a) ∧ l.map g = l' := by
  induction l generalizing l' with
  | nil => simp [pure, Except.pure]
  | cons a l ih =>
    simp only [List.mapM_cons, bind_eq_ok, pure, Except.pure, Except.ok.injEq, hf, ih,
      List.forall_mem_cons, List.map_cons]
    constructor
    · rintro ⟨_, ⟨ha, rfl⟩, _, ⟨hl, rfl⟩, rfl⟩
      exact ⟨⟨ha, hl⟩, rfl⟩
    · rintro ⟨⟨ha, hl⟩, rfl⟩
      exact ⟨_, ⟨ha, rfl⟩, _, ⟨hl, rfl⟩, rfl⟩

theorem exists_of_mapM_mem {f : α → Except ε β} {l : List α} {l' : List β}
    (h : l.mapM f = .ok l') {b : β} (hb : b ∈ l') : ∃ a ∈ l, f a = .ok b := by
  induction mapM_eq_ok.mp h with
  | nil => cases hb
  | cons hab _ ih =>
    rcases List.mem_cons.mp hb with rfl | hb
    · exact ⟨_, List.mem_cons_self .., hab⟩
    · obtain ⟨a, ha, hab⟩ := ih (mapM_eq_ok.mpr ‹_›) hb
      exact ⟨a, List.mem_cons_of_mem _ ha, hab⟩

theorem exists_mapM_mem {f : α → Except ε β} {l : List α} {l' : List β}
    (h : l.mapM f = .ok l') {a : α} (ha : a ∈ l) : ∃ b ∈ l', f a = .ok b := by
  induction mapM_eq_ok.mp h with
  | nil => cases ha
  | cons hab _ ih =>
    rcases List.mem_cons.mp ha with rfl | ha
    · exact ⟨_, List.mem_cons_self .., hab⟩
    · obtain ⟨b, hb, hab⟩ := ih (mapM_eq_ok.mpr ‹_›) ha
      exact ⟨b, List.mem_cons_of_mem _ hb, hab⟩

theorem mapM_eq_self {f : α → Except ε α} {l l' : List α}
    (hf : ∀ a ∈ l, ∀ b, f a = .ok b → b = a) (h : l.mapM f = .ok l') : l' = l := by
  induction mapM_eq_ok.mp h with
  | nil => rfl
  | cons hab hrest ih =>
    obtain ⟨ha, hl⟩ := List.forall_mem_cons.mp hf
    rw [ha _ hab, ih hl (mapM_eq_ok.mpr hrest)]

theorem mapM_pairwise {f : α → Except ε β} {R : α → α → Prop} {S : β → β → Prop} {l : List α}
    {l' : List β}
    (hf : ∀ a ∈ l, ∀ a' ∈ l, ∀ b b', R a a' → f a = .ok b → f a' = .ok b' → S b b')
    (hl : l.Pairwise R) (h : l.mapM f = .ok l') : l'.Pairwise S := by
  induction mapM_eq_ok.mp h with
  | nil => exact .nil
  | @cons a b l l' hab hrest ih =>
    obtain ⟨ha, hl⟩ := List.pairwise_cons.mp hl
    refine List.pairwise_cons.mpr ⟨fun b' hb' => ?_, ih (fun x hx y hy => ?_) hl
      (mapM_eq_ok.mpr hrest)⟩
    · obtain ⟨a', ha', hab'⟩ := exists_of_mapM_mem (mapM_eq_ok.mpr hrest) hb'
      exact hf a (List.mem_cons_self ..) a' (List.mem_cons_of_mem _ ha') b b' (ha a' ha') hab hab'
    · exact hf x (List.mem_cons_of_mem _ hx) y (List.mem_cons_of_mem _ hy)

theorem foldlM_gathers {step : β → α → Except ε β} {I Q : β → Prop} {R : α → Prop} {l : List α}
    (hstep : ∀ b a b', a ∈ l → I b → step b a = .ok b' → I b' ∧ (Q b' ↔ Q b ∨ R a)) {b b' : β}
    (hb : I b) (h : l.foldlM step b = .ok b') : I b' ∧ (Q b' ↔ Q b ∨ ∃ a ∈ l, R a) := by
  induction l generalizing b with
  | nil =>
    obtain rfl : b = b' := by simpa [pure, Except.pure] using h
    exact ⟨hb, by simp⟩
  | cons a l ih =>
    rw [List.foldlM_cons, bind_eq_ok] at h
    obtain ⟨c, hc, h⟩ := h
    obtain ⟨hI, hQ⟩ := hstep b a c (List.mem_cons_self ..) hb hc
    obtain ⟨hI', hQ'⟩ := ih (fun b a b' ha => hstep b a b' (List.mem_cons_of_mem _ ha)) hI h
    refine ⟨hI', ?_⟩
    rw [hQ', hQ, List.exists_mem_cons_iff, or_assoc]

theorem foldlM_restricts {step : β → α → Except ε β} {I Q : β → Prop} {R : α → Prop} {l : List α}
    (hstep : ∀ b a b', a ∈ l → I b → step b a = .ok b' → I b' ∧ (Q b' ↔ Q b ∧ R a)) {b b' : β}
    (hb : I b) (h : l.foldlM step b = .ok b') : I b' ∧ (Q b' ↔ Q b ∧ ∀ a ∈ l, R a) := by
  have hneg := foldlM_gathers (I := I) (Q := fun b => ¬ Q b) (R := fun a => ¬ R a)
    (fun b a b' ha hI hs => ⟨(hstep b a b' ha hI hs).1, by
      rw [(hstep b a b' ha hI hs).2, Classical.not_and_iff_not_or_not]⟩) hb h
  refine ⟨hneg.1, ?_⟩
  rw [← not_iff_not, hneg.2, Classical.not_and_iff_not_or_not]
  simp

theorem foldlM_invariant {step : β → α → Except ε β} {I : β → Prop} {l : List α}
    (hstep : ∀ b a b', a ∈ l → I b → step b a = .ok b' → I b') {b b' : β}
    (hb : I b) (h : l.foldlM step b = .ok b') : I b' :=
  (foldlM_gathers (Q := fun _ => False) (R := fun _ => False)
    (fun b a b' ha hI hs => ⟨hstep b a b' ha hI hs, by simp⟩) hb h).1

theorem foldlM_size_le {step : β → α → Except ε β} {n : β → Nat} {l : List α}
    (hstep : ∀ b a b', a ∈ l → step b a = .ok b' → n b' ≤ n b + 1) {b b' : β}
    (h : l.foldlM step b = .ok b') : n b' ≤ n b + l.length := by
  induction l generalizing b with
  | nil =>
    obtain rfl : b = b' := by simpa [pure, Except.pure] using h
    exact Nat.le_refl _
  | cons a l ih =>
    rw [List.foldlM_cons, bind_eq_ok] at h
    obtain ⟨c, hc, h⟩ := h
    have hfirst := hstep b a c (List.mem_cons_self ..) hc
    have hrest := ih (fun b a b' ha => hstep b a b' (List.mem_cons_of_mem _ ha)) h
    rw [List.length_cons]
    omega

theorem forM_eq_ok {f : α → Except ε Unit} {l : List α} :
    l.forM f = .ok () ↔ ∀ a ∈ l, f a = .ok () := by
  induction l with
  | nil => simp [pure, Except.pure]
  | cons a l ih =>
    rw [List.forM_eq_forM, List.forM_cons, bind_eq_ok, List.forall_mem_cons, ← ih]
    constructor
    · rintro ⟨_, ha, hl⟩
      exact ⟨ha, hl⟩
    · rintro ⟨ha, hl⟩
      exact ⟨_, ha, hl⟩

theorem exists_first_of_forM {f : α → Except ε Unit} {l : List α} {e : ε}
    (h : l.forM f = .error e) :
    ∃ before a after, l = before ++ a :: after ∧ (∀ b ∈ before, f b = .ok ()) ∧ f a = .error e := by
  induction l with
  | nil => simp [pure, Except.pure] at h
  | cons a l ih =>
    rw [List.forM_eq_forM, List.forM_cons, bind_eq_error] at h
    rcases h with ha | ⟨_, ha, hl⟩
    · exact ⟨[], a, l, rfl, by simp, ha⟩
    · obtain ⟨before, b, after, rfl, hbefore, hb⟩ := ih hl
      exact ⟨a :: before, b, after, rfl, List.forall_mem_cons.mpr ⟨ha, hbefore⟩, hb⟩

theorem forM_eq_error {f : α → Except ε Unit} {l : List α} {e : ε} (h : l.forM f = .error e) :
    ∃ a ∈ l, f a = .error e := by
  obtain ⟨before, a, after, rfl, -, ha⟩ := exists_first_of_forM h
  exact ⟨a, by simp, ha⟩

def FailsOnly (E : ε → Prop) (x : Except ε α) : Prop := ∀ e, x = .error e → E e

namespace FailsOnly

variable {E : ε → Prop}

theorem ok {a : α} : FailsOnly E (.ok a) := nofun

theorem error {e : ε} (he : E e) : FailsOnly E (.error e : Except ε α) := by
  rintro e' ⟨⟩
  exact he

theorem bind_of_ok {x : Except ε α} {f : α → Except ε β} (hx : FailsOnly E x)
    (hf : ∀ a, x = .ok a → FailsOnly E (f a)) : FailsOnly E (x >>= f) := by
  intro e h
  rcases bind_eq_error.mp h with h | ⟨a, ha, h⟩
  · exact hx e h
  · exact hf a ha e h

theorem bind {x : Except ε α} {f : α → Except ε β} (hx : FailsOnly E x)
    (hf : ∀ a, FailsOnly E (f a)) : FailsOnly E (x >>= f) :=
  hx.bind_of_ok fun a _ => hf a

theorem map {x : Except ε α} {f : α → β} (hx : FailsOnly E x) : FailsOnly E (f <$> x) := by
  cases x with
  | error e => exact error (hx e rfl)
  | ok a => exact ok

theorem mono {E' : ε → Prop} {x : Except ε α} (hx : FailsOnly E x) (h : ∀ e, E e → E' e) :
    FailsOnly E' x := fun e he => h e (hx e he)

theorem foldlM_invariant {step : β → α → Except ε β} {I : β → Prop} {l : List α} {b : β}
    (hb : I b) (hkeep : ∀ b a b', a ∈ l → I b → step b a = .ok b' → I b')
    (hstep : ∀ b, ∀ a ∈ l, I b → FailsOnly E (step b a)) : FailsOnly E (l.foldlM step b) := by
  induction l generalizing b with
  | nil => exact ok
  | cons a l ih =>
    refine (hstep b a (List.mem_cons_self ..) hb).bind_of_ok fun c hc => ?_
    exact ih (hkeep b a c (List.mem_cons_self ..) hb hc)
      (fun b a b' ha => hkeep b a b' (List.mem_cons_of_mem _ ha))
      fun b a ha => hstep b a (List.mem_cons_of_mem _ ha)

theorem foldlM_mem {step : β → α → Except ε β} {l : List α} {b : β}
    (hstep : ∀ b, ∀ a ∈ l, FailsOnly E (step b a)) : FailsOnly E (l.foldlM step b) :=
  foldlM_invariant (I := fun _ => True) trivial (fun _ _ _ _ _ _ => trivial)
    fun b a ha _ => hstep b a ha

theorem foldlM {step : β → α → Except ε β} {l : List α} {b : β}
    (hstep : ∀ b a, FailsOnly E (step b a)) : FailsOnly E (l.foldlM step b) :=
  foldlM_mem fun b a _ => hstep b a

theorem mapM_mem {f : α → Except ε β} {l : List α} (hf : ∀ a ∈ l, FailsOnly E (f a)) :
    FailsOnly E (l.mapM f) := by
  induction l with
  | nil => exact ok
  | cons a l ih =>
    obtain ⟨ha, hl⟩ := List.forall_mem_cons.mp hf
    rw [List.mapM_cons]
    exact ha.bind fun _ => (ih hl).bind fun _ => ok

theorem mapM {f : α → Except ε β} {l : List α} (hf : ∀ a, FailsOnly E (f a)) :
    FailsOnly E (l.mapM f) :=
  mapM_mem fun a _ => hf a

end FailsOnly

end LoopAudit.Fallible
