import LoopAudit.JsonText.Decoder
import LoopAudit.Proofs.Fallible

/-! What can be said of every value that a decoder returns, from what its parts return. -/

namespace LoopAudit.JsonText

open Fallible

variable {α κ σ : Type} {P : α → Prop}

def Delivers (P : α → Prop) (d : Decoder α) : Prop := ∀ cs a rest, d cs = .ok (a, rest) → P a

theorem unexpected_ne_ok {expected : String} {cs : List Char} {a : α} :
    unexpected expected cs ≠ .ok a := by
  intro h
  have ⟨_, _, h⟩ := bind_eq_ok.mp h
  cases h

theorem nullable_delivers {item : Decoder α} (h : Delivers P item) :
    Delivers (fun o => ∀ a, o = some a → P a) (nullable item) := by
  intro cs o rest hread
  unfold nullable at hread
  split at hread
  · have ⟨_, _, hread⟩ := bind_eq_ok.mp hread
    cases hread
    nofun
  · have ⟨⟨a, rest'⟩, ha, hread⟩ := bind_eq_ok.mp hread
    cases hread
    rintro a' ⟨⟩
    exact h _ a _ ha

theorem items_delivers {item : Decoder α} (h : Delivers P item) (n : Nat) (first : Bool) :
    Delivers (fun as => ∀ a ∈ as, P a) (items item n first) := by
  induction n generalizing first with
  | zero => exact fun _ _ _ hread => by cases hread
  | succ n ih =>
    intro cs as rest hread
    have ⟨o, _, hread⟩ := bind_eq_ok.mp hread
    split at hread
    · cases hread
      nofun
    · have ⟨⟨a, us⟩, ha, hread⟩ := bind_eq_ok.mp hread
      have ⟨⟨as', vs⟩, has, hread⟩ := bind_eq_ok.mp hread
      cases hread
      exact List.forall_mem_cons.mpr ⟨h _ a _ ha, ih false _ as' _ has⟩

theorem array_delivers {item : Decoder α} (h : Delivers P item) :
    Delivers (fun as => ∀ a ∈ as, P a) (array item) := by
  intro cs as rest hread
  unfold array at hread
  split at hread
  · cases hread
  · exact items_delivers h _ _ _ as rest hread
  · exact absurd hread unexpected_ne_ok

def Maintains (I : σ → Prop) (member : σ → Decoder σ) : Prop := ∀ s, I s → Delivers I (member s)

theorem objectTail_delivers {I : σ → Prop} {member : σ → Decoder σ} {s : σ}
    (h : Maintains I member) (hs : I s) : Delivers I (objectTail member s) := by
  have hmembers (n : Nat) : ∀ first s, I s → Delivers I (members member n first s) := by
    induction n with
    | zero => exact fun _ _ _ _ _ _ hread => by cases hread
    | succ n ih =>
      intro first s hs cs t rest hread
      have ⟨o, _, hread⟩ := bind_eq_ok.mp hread
      split at hread
      · cases hread
        exact hs
      · have ⟨⟨s', us⟩, hs', hread⟩ := bind_eq_ok.mp hread
        exact ih false s' (h s hs _ s' us hs') _ t rest hread
  exact fun cs => hmembers (cs.length + 1) true s hs cs

theorem entries_delivers {key : Decoder κ} {value : Decoder α} {K : κ → Prop}
    (hkey : Delivers K key) (hvalue : Delivers P value) :
    Delivers (fun es => ∀ e ∈ es, K e.1 ∧ P e.2) (entries key value) := by
  intro cs es rest hread
  unfold entries at hread
  split at hread
  · cases hread
  · refine objectTail_delivers (I := fun es => ∀ e ∈ es, K e.1 ∧ P e.2) ?_ nofun _ es rest hread
    intro found hfound cs es rest hread
    have ⟨⟨k, us⟩, hk, hread⟩ := bind_eq_ok.mp hread
    have ⟨vs, _, hread⟩ := bind_eq_ok.mp hread
    have ⟨⟨v, ws⟩, hv, hread⟩ := bind_eq_ok.mp hread
    cases hread
    refine List.forall_mem_append.mpr ⟨hfound, List.forall_mem_singleton.mpr ?_⟩
    exact ⟨hkey _ k us hk, hvalue _ v _ hv⟩
  · exact absurd hread unexpected_ne_ok

theorem record_delivers {name : String} {fields : List (RecordField σ)} {start : σ} {I : σ → Prop}
    (hfields : ∀ f ∈ fields, Maintains I f.read) (hstart : I start) :
    Delivers I (record name fields start) := by
  have hpositional (expected : String) (fs : List (RecordField σ)) (hfs : fs ⊆ fields) :
      ∀ index first s, I s → Delivers I (positional expected index fs first s) := by
    induction fs with
    | nil =>
      intro index first s hs cs t rest hread
      unfold positional arrayEnd at hread
      split at hread <;> cases hread
      exact hs
    | cons f fs ih =>
      have hrest := ih fun g hg => hfs (List.mem_cons_of_mem f hg)
      intro index first s hs cs t rest hread
      have ⟨o, _, hread⟩ := bind_eq_ok.mp hread
      split at hread
      · have ⟨⟨s', us⟩, hs', hread⟩ := bind_eq_ok.mp hread
        have hmaintained : I s' := hfields f (hfs (List.mem_cons_self ..)) s hs _ s' us hs'
        exact hrest _ _ s' hmaintained _ t rest hread
      · split_ifs at hread
        exact hrest _ _ s hs _ t rest hread
  have hmember : Maintains (fun state : σ × List String => I state.1) (fieldMember fields) := by
    intro state hstate cs state' rest hread
    have ⟨⟨key, us⟩, _, hread⟩ := bind_eq_ok.mp hread
    dsimp only at hread
    split at hread
    · have ⟨vs, _, hread⟩ := bind_eq_ok.mp hread
      have ⟨_, _, hread⟩ := bind_eq_ok.mp hread
      cases hread
      exact hstate
    · next f hf =>
      split_ifs at hread
      have ⟨vs, _, hread⟩ := bind_eq_ok.mp hread
      have ⟨⟨s', ws⟩, hs', hread⟩ := bind_eq_ok.mp hread
      cases hread
      exact hfields f (List.mem_of_find?_eq_some hf) state.1 hstate _ s' _ hs'
  intro cs t rest hread
  unfold record at hread
  split at hread
  · cases hread
  · exact hpositional _ fields (List.Subset.refl _) _ _ start hstart _ t rest hread
  · have ⟨⟨⟨s, seen⟩, us⟩, hs, hread⟩ := bind_eq_ok.mp hread
    dsimp only at hread
    split at hread <;> cases hread
    exact objectTail_delivers hmember hstart _ (t, seen) rest hs
  · exact absurd hread unexpected_ne_ok

theorem atom_delivers (depth : Nat) :
    Delivers (fun a => ∀ n, a = .integer n → Word.Fits n) (atom depth) := by
  cases depth with
  | zero => exact fun _ _ _ hread => by cases hread
  | succ depth =>
    intro cs a rest hread
    unfold atom at hread
    split at hread
    · cases hread
    · have ⟨_, _, hread⟩ := bind_eq_ok.mp hread
      cases hread
      nofun
    · have ⟨_, _, hread⟩ := bind_eq_ok.mp hread
      cases hread
      nofun
    · have ⟨_, _, hread⟩ := bind_eq_ok.mp hread
      cases hread
      nofun
    · have ⟨_, _, hread⟩ := bind_eq_ok.mp hread
      cases hread
      nofun
    · split_ifs at hread
      have ⟨_, _, hread⟩ := bind_eq_ok.mp hread
      cases hread
      nofun
    · split_ifs at hread
      have hother : a = .other := by
        refine objectTail_delivers (I := (· = .other)) ?_ rfl _ a rest hread
        intro s _ cs b rest hread
        have ⟨_, _, hread⟩ := bind_eq_ok.mp hread
        have ⟨_, _, hread⟩ := bind_eq_ok.mp hread
        have ⟨_, _, hread⟩ := bind_eq_ok.mp hread
        cases hread
        rfl
      rw [hother]
      nofun
    · split_ifs at hread
      have ⟨_, _, hread⟩ := bind_eq_ok.mp hread
      split at hread <;> cases hread
      · intro n hn
        split_ifs at hn with hfits
        cases hn
        exact hfits
      · nofun

theorem numericKey_delivers {bound : Nat} {expected : String} :
    Delivers (· < bound) (numericKey bound expected) := by
  intro cs n rest hread
  unfold numericKey at hread
  split at hread
  · cases hread
  · split_ifs at hread
    obtain ⟨⟨v, us⟩, _, hread⟩ := bind_eq_ok.mp hread
    cases v with
    | integer v =>
      dsimp only at hread
      split_ifs at hread with hrange
      split at hread <;> cases hread
      omega
    | decimal _ _ _ => exact absurd hread unexpected_ne_ok

end LoopAudit.JsonText
