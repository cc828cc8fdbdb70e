import LoopAudit.Tag
import LoopAudit.Proofs.Fallible
import LoopAudit.Proofs.Scanning
import Mathlib.Data.List.DropRight

/-! Tags as text: a tag that was read is written in a form that reads back as the tag. -/

namespace LoopAudit

open Fallible

namespace Decimal

variable {n bound : Nat} {cs ds : List Char} {outside : Malformed} {fits : Int → Bool}

theorem le_foldl_digits (acc : Nat) :
    acc ≤ ds.foldl (fun n c => 10 * n + digitValue c) acc := by
  induction ds generalizing acc with
  | nil => exact Nat.le_refl acc
  | cons c ds ih =>
    have htail := ih (10 * acc + digitValue c)
    rw [List.foldl_cons]
    omega

theorem accumulate_digits {acc : Nat} (hds : ∀ c ∈ ds, isDigit c = true)
    (hn : ds.foldl (fun n c => 10 * n + digitValue c) acc = n)
    (hfits : ∀ m : Nat, m ≤ n → fits m = true) : accumulate 1 outside fits acc ds = .ok n := by
  induction ds generalizing acc with
  | nil => exact congrArg (fun m : Nat => Except.ok (m : Int)) hn
  | cons c ds ih =>
    have ⟨hc, hds⟩ := List.forall_mem_cons.mp hds
    have hnext : 10 * (acc : Int) + 1 * digitValue c = (10 * acc + digitValue c : Nat) := by omega
    have hbelow : fits (10 * acc + digitValue c : Nat) = true := by
      apply hfits
      rw [← hn]
      exact le_foldl_digits _
    rw [accumulate, if_pos hc]
    simp only [hnext, hbelow, if_true]
    exact ih hds hn

theorem accumulate_fits {sign acc v : Int} (hacc : fits acc = true)
    (h : accumulate sign outside fits acc cs = .ok v) : fits v = true := by
  induction cs generalizing acc with
  | nil =>
    cases h
    exact hacc
  | cons c cs ih =>
    rw [accumulate] at h
    dsimp only at h
    split_ifs at h with hc hnext
    exact ih hnext h

theorem readBelow_toDigits (h : n < bound) : readBelow bound (Nat.toDigits 10 n) = .ok n := by
  have hdigits : ∀ c ∈ Nat.toDigits 10 n, isDigit c = true := fun _ => isDigit_of_mem_toDigits
  have hread : accumulate 1 .tooLarge (fun v => v < (bound : Int)) (0 : Nat) (Nat.toDigits 10 n) =
      .ok (n : Int) := by
    refine accumulate_digits hdigits value_toDigits fun m hm => ?_
    simpa using Nat.lt_of_le_of_lt hm h
  have hplus : '+' ∉ Nat.toDigits 10 n := fun hmem => absurd (hdigits _ hmem) (by decide)
  unfold readBelow
  split
  · next heq => exact absurd heq Nat.toDigits_ne_nil
  · next heq => exact absurd (heq ▸ List.mem_singleton_self _) hplus
  · next heq => exact absurd (heq ▸ List.mem_cons_self ..) hplus
  · exact congrArg (Int.toNat <$> ·) hread

theorem readBelow_lt (hbound : 0 < bound) (h : readBelow bound cs = .ok n) : n < bound := by
  have hzero : decide ((0 : Int) < bound) = true := by simpa using hbound
  have hlt {ds : List Char}
      (hread : Int.toNat <$> accumulate 1 .tooLarge (fun v => v < (bound : Int)) 0 ds = .ok n) :
      n < bound := by
    have ⟨v, hv, hn⟩ := map_eq_ok.mp hread
    have hfits := accumulate_fits hzero hv
    rw [decide_eq_true_eq] at hfits
    omega
  unfold readBelow at h
  split at h
  · cases h
  · cases h
  · exact hlt h
  · exact hlt h

end Decimal

namespace Text

variable {cs : List Char}

theorem trim_eq_rdropWhile : trim cs = (cs.dropWhile isBlank).rdropWhile isBlank := rfl

theorem trim_trim : trim (trim cs) = trim cs := by
  have hhead : (trim cs).dropWhile isBlank = trim cs := by
    rw [List.dropWhile_eq_self_iff]
    intro hlength
    have hprefix : trim cs <+: cs.dropWhile isBlank := List.rdropWhile_prefix isBlank _
    have hnonempty : 0 < (cs.dropWhile isBlank).length :=
      Nat.lt_of_lt_of_le hlength hprefix.length_le
    have hfirst := List.dropWhile_get_zero_not isBlank cs hnonempty
    have hsame : (trim cs)[0] = (cs.dropWhile isBlank)[0] := hprefix.getElem hlength
    rw [hsame]
    exact hfirst
  rw [trim_eq_rdropWhile, hhead, trim_eq_rdropWhile, List.rdropWhile_idempotent]

theorem trim_of_forall (h : ∀ c ∈ cs, isBlank c = false) : trim cs = cs := by
  have hdrop {ds : List Char} (hds : ∀ c ∈ ds, isBlank c = false) : ds.dropWhile isBlank = ds := by
    cases ds with
    | nil => rfl
    | cons c ds => simp [hds c (List.mem_cons_self ..)]
  have hreverse : ∀ c ∈ cs.reverse, isBlank c = false := fun c hc => h c (List.mem_reverse.mp hc)
  rw [trim, hdrop h, hdrop hreverse, List.reverse_reverse]

theorem eq_of_splitAt? {sep : Char} {before after : List Char}
    (h : splitAt? sep cs = some (before, after)) : cs = before ++ sep :: after := by
  induction cs generalizing before with
  | nil => cases h
  | cons c cs ih =>
    rw [splitAt?] at h
    split_ifs at h with hc
    · cases h
      rw [hc, List.nil_append]
    · have ⟨⟨before', after'⟩, hparts, heq⟩ := Option.map_eq_some_iff.mp h
      cases heq
      rw [ih hparts, List.cons_append]

end Text

namespace Tag

variable {n : Nat} {src : String} {t : Tag}

theorem isBlank_of_isDigit {c : Char} (h : Decimal.isDigit c = true) : Text.isBlank c = false := by
  rw [Decimal.isDigit_iff] at h
  simp only [Text.isBlank, Bool.or_eq_false_iff, Bool.and_eq_false_iff, decide_eq_false_iff_not,
    beq_eq_false_iff_ne]
  omega

theorem parse?_axis (letter : Char) (hletter : Text.isBlank letter = false)
    (hpoint : letter ≠ '.') :
    parse? (String.ofList [letter, '.'] ++ Decimal.text n) =
      ofParts? (String.ofList [letter]) (Nat.toDigits 10 n) := by
  have hdigits : ∀ c ∈ Nat.toDigits 10 n, Decimal.isDigit c = true :=
    fun _ => Decimal.isDigit_of_mem_toDigits
  have htext : (String.ofList [letter, '.'] ++ Decimal.text n).toList =
      letter :: '.' :: Nat.toDigits 10 n := by
    rw [Decimal.text, if_neg (by omega), Int.natAbs_natCast, Nat.repr_eq_ofList_toDigits]
    simp
  have htrim :
      Text.trim (letter :: '.' :: Nat.toDigits 10 n) = letter :: '.' :: Nat.toDigits 10 n := by
    apply Text.trim_of_forall
    rw [List.forall_mem_cons, List.forall_mem_cons]
    exact ⟨hletter, rfl, fun c hc => isBlank_of_isDigit (hdigits c hc)⟩
  have hsplit : Text.splitAt? '.' (letter :: '.' :: Nat.toDigits 10 n) =
      some ([letter], Nat.toDigits 10 n) := by
    rw [Text.splitAt?, if_neg hpoint, Text.splitAt?, if_pos rfl, Option.map_some]
  have hword {w : String} (h : String.ofList (letter :: '.' :: Nat.toDigits 10 n) = w) :
      letter :: '.' :: Nat.toDigits 10 n = w.toList := by
    rw [← h, String.toList_ofList]
  unfold parse?
  rw [htext, htrim]
  dsimp only
  split
  · next heq => cases hword heq
  · next heq => cases hword heq
  · next heq =>
    obtain ⟨-, hauto⟩ := List.cons.inj (hword heq)
    have hletter : 'a' ∈ Nat.toDigits 10 n := by
      rw [(List.cons.inj hauto).2]
      exact List.mem_cons_self ..
    exact absurd (hdigits _ hletter) (by decide)
  · rw [hsplit]

theorem readBelow_again {cs : List Char}
    (h : (Decimal.readBelow axisBound cs).toOption = some n) :
    (Decimal.readBelow axisBound (Nat.toDigits 10 n)).toOption = some n := by
  have hn : n < axisBound := by
    cases hread : Decimal.readBelow axisBound cs with
    | error _ =>
      rw [hread] at h
      cases h
    | ok m =>
      rw [hread] at h
      cases h
      exact Decimal.readBelow_lt (by decide) hread
  rw [Decimal.readBelow_toDigits hn]
  rfl

theorem parse?_text_axis {axis : Nat → Tag} {cs : List Char} (letter : Char)
    (hletter : Text.isBlank letter = false) (hpoint : letter ≠ '.')
    (hread : ∀ ds, ofParts? (String.ofList [letter]) ds =
      axis <$> (Decimal.readBelow axisBound ds).toOption)
    (hwrite : ∀ n, (axis n).text = String.ofList [letter, '.'] ++ Decimal.text n)
    (h : axis <$> (Decimal.readBelow axisBound cs).toOption = some t) :
    parse? t.text = some t := by
  have ⟨n, hn, ht⟩ := Option.map_eq_some_iff.mp h
  subst ht
  rw [hwrite, parse?_axis letter hletter hpoint, hread, readBelow_again hn]
  rfl

theorem parse?_text (h : parse? src = some t) : parse? t.text = some t := by
  have hsrc := h
  unfold parse? at h
  dsimp only at h
  split at h
  · cases h
    decide
  · cases h
    decide
  · cases h
    decide
  · split at h
    · cases h
    · next head rest hsplit =>
      unfold ofParts? at h
      split at h
      · exact parse?_text_axis 'g' rfl (by decide) (fun _ => rfl) (fun _ => rfl) h
      · exact parse?_text_axis 'l' rfl (by decide) (fun _ => rfl) (fun _ => rfl) h
      · next hhead =>
        split_ifs at h
        cases h
        have hbody : (unique (String.ofList rest)).text.toList = Text.trim src.toList := by
          rw [Text.eq_of_splitAt? hsplit, ← String.toList_ofList (l := head), hhead]
          simp [text]
        have hsame : parse? (unique (String.ofList rest)).text = parse? src := by
          unfold parse?
          rw [hbody, Text.trim_trim]
        rw [hsame, hsrc]
      · cases h

end Tag

end LoopAudit
