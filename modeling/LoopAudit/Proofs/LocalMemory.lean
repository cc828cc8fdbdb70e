import LoopAudit.Advisory
import LoopAudit.Proofs.Fallible
import Mathlib.Algebra.Order.BigOperators.Group.List
import Mathlib.Algebra.Order.BigOperators.GroupWithZero.List
import Mathlib.Algebra.Order.Ring.Int

/-! The verdict on local memory against the sum over the integers. The bytes are counted in words,
so the verdict is the exact one as long as each product of leading extents and each sum over leading
temporaries is a word; past that the check gives up with a note of the least severity. -/

namespace LoopAudit.Advisory

open Fallible

variable {k : Kernel} {device : Device} {values : Assignment} {t : Temporary}
  {extents : Temporary → List Int} {p : Problem} {ps : List Problem} {a : Advisory}

section Severity

structure Consistent (a : Advisory) : Prop where
  le : ∀ p ∈ a.messages, p.severity ≤ a.maxSeverity
  attained : a.messages ≠ [] → ∃ p ∈ a.messages, p.severity = a.maxSeverity
  zero : a.messages = [] → a.maxSeverity = 0

theorem Consistent.clear : clear.Consistent := ⟨by simp [Advisory.clear], absurd rfl, fun _ => rfl⟩

theorem Consistent.push (h : a.Consistent) : (a.push p).Consistent := by
  refine ⟨List.forall_mem_append.mpr ⟨fun q hq => le_max_of_le_left (h.le q hq), ?_⟩, fun _ => ?_,
    fun hnil => absurd hnil (by simp [Advisory.push])⟩
  · exact List.forall_mem_singleton.mpr (le_max_right ..)
  · by_cases hle : a.maxSeverity ≤ p.severity
    · exact ⟨p, List.mem_append_right _ (List.mem_singleton.mpr rfl), (max_eq_right hle).symm⟩
    · -- A severity above zero was stored for one of the messages before.
      have hne : a.messages ≠ [] := fun hnil => hle (h.zero hnil ▸ p.severity.zero_le)
      obtain ⟨q, hq, hmax⟩ := h.attained hne
      exact ⟨q, List.mem_append_left _ hq, hmax.trans (max_eq_left (not_le.mp hle).le).symm⟩

theorem Consistent.report (h : a.Consistent) : (a.report ps).Consistent :=
  List.foldlRecOn ps Advisory.push h fun _ ha _ _ => ha.push

theorem advise_consistent : (advise k device values).Consistent :=
  Consistent.clear.report.report.report.report

@[simp] theorem report_messages : (a.report ps).messages = a.messages ++ ps := by
  induction ps generalizing a with
  | nil => exact (List.append_nil _).symm
  | cons p ps ih => exact ih.trans (List.append_assoc ..)

theorem advise_messages : (advise k device values).messages =
    dimensionProblems k device ++ sizeProblems k device values ++ memoryProblems k device values ++
      argumentProblems k device := by
  simp only [advise, report_messages, clear, List.nil_append]

theorem severity_lt_of_mem_filterVariants {policy : Policy} {ks : List Kernel}
    (hk : k ∈ filterVariants device values policy ks) (hp : p ∈ (advise k device values).messages) :
    p.severity < policy.killLevel := by
  have hsurvives := (List.mem_filter.mp hk).2
  rw [survives, decide_eq_true_iff] at hsurvives
  exact (advise_consistent.le p hp).trans_lt hsurvives

end Severity

section Counting

theorem foldlM_fitting_eq_ok {α : Type} {f : Int → Int → Int} {g : α → Except EvalError Int}
    {P : α → Prop} {w : α → Int} {l : List α} {start r : Int} (hstart : Word.Fits start)
    (hg : ∀ a ∈ l, ∀ v, g a = .ok v ↔ P a ∧ w a = v) :
    l.foldlM (fun acc a => do Expr.fitting (f acc (← g a))) start = .ok r ↔
      (∀ a ∈ l, P a) ∧ (∀ n, Word.Fits (((l.take n).map w).foldl f start)) ∧
        (l.map w).foldl f start = r := by
  induction l generalizing start with
  | nil => simp [hstart, pure, Except.pure]
  | cons a l ih =>
    obtain ⟨ha, hl⟩ := List.forall_mem_cons.mp hg
    rw [List.foldlM_cons, bind_eq_ok, ← Nat.and_forall_add_one, List.forall_mem_cons]
    simp only [bind_eq_ok, ha, Expr.fitting_eq_ok, List.take_zero, List.map_nil, List.foldl_nil,
      List.take_succ_cons, List.map_cons, List.foldl_cons, hstart, true_and]
    constructor
    · rintro ⟨_, ⟨_, ⟨hP, rfl⟩, hfits, rfl⟩, h⟩
      obtain ⟨hrest, hsteps⟩ := (ih hfits hl).mp h
      exact ⟨⟨hP, hrest⟩, hsteps⟩
    · rintro ⟨⟨hP, hrest⟩, hsteps, hr⟩
      have hfirst : Word.Fits (f start (w a)) := by simpa using hsteps 0
      exact ⟨_, ⟨_, ⟨hP, rfl⟩, hfirst, rfl⟩, (ih hfirst hl).mpr ⟨hrest, hsteps, hr⟩⟩

theorem foldl_mul_eq_prod {l : List Int} {start : Int} :
    l.foldl (· * ·) start = start * l.prod := by
  induction l generalizing start with
  | nil => simp
  | cons a l ih => rw [List.foldl_cons, ih, List.prod_cons, mul_assoc]

theorem product_eq_ok {start r : Int} {factors : List Int} (hstart : Word.Fits start) :
    product start factors = .ok r ↔
      (∀ n, Word.Fits (start * (factors.take n).prod)) ∧ start * factors.prod = r := by
  have h := foldlM_fitting_eq_ok (f := (· * ·)) (g := .ok) (P := fun _ => True) (w := id)
    (l := factors) (r := r) hstart (by simp)
  simp only [List.map_id, foldl_mul_eq_prod, implies_true, true_and] at h
  exact h

def groupTemporaries (k : Kernel) : List Temporary :=
  k.temporaries.filter fun t => t.scope = .perGroup

def Measures (values : Assignment) (extents : Temporary → List Int) (k : Kernel) : Prop :=
  ∀ t ∈ groupTemporaries k,
    List.Forall₂ (fun e v => Expr.evaluate values e = .ok v) t.shape (extents t)

def exactBytes (extents : Temporary → List Int) (t : Temporary) : Int :=
  t.dtype.sizeInBytes * (extents t).prod

def exactUse (extents : Temporary → List Int) (k : Kernel) : Int :=
  ((groupTemporaries k).map (exactBytes extents)).sum

structure Countable (extents : Temporary → List Int) (k : Kernel) : Prop where
  products : ∀ t ∈ groupTemporaries k, ∀ n,
    Word.Fits (t.dtype.sizeInBytes * ((extents t).take n).prod)
  sums : ∀ n, Word.Fits (((groupTemporaries k).take n).map (exactBytes extents)).sum

theorem sizeInBytes_fits (dtype : ScalarType) : Word.Fits dtype.sizeInBytes := by
  cases dtype <;> decide

theorem bytes_eq_product {vs : List Int}
    (h : List.Forall₂ (fun e v => Expr.evaluate values e = .ok v) t.shape vs) :
    bytes values t = product t.dtype.sizeInBytes vs := by
  rw [bytes, mapM_eq_ok.mpr h]
  rfl

theorem localMemoryUse_eq_ok (h : Measures values extents k) {used : Int} :
    localMemoryUse k values = .ok used ↔ Countable extents k ∧ exactUse extents k = used := by
  have hbytes (t) (ht : t ∈ groupTemporaries k) (v : Int) : bytes values t = .ok v ↔
      (∀ n, Word.Fits (t.dtype.sizeInBytes * ((extents t).take n).prod)) ∧
        exactBytes extents t = v := by
    rw [bytes_eq_product (h t ht), product_eq_ok (sizeInBytes_fits _), exactBytes]
  have hfold := foldlM_fitting_eq_ok (f := (· + ·)) (r := used) (by decide : Word.Fits 0) hbytes
  simp only [← List.sum_eq_foldl] at hfold
  rw [localMemoryUse, exactUse]
  refine hfold.trans ?_
  rw [← and_assoc]
  exact and_congr_left fun _ => ⟨fun hc => ⟨hc.1, hc.2⟩, fun hc => ⟨hc.1, hc.2⟩⟩

theorem leading_le_exactBytes (hpos : ∀ v ∈ extents t, 0 < v) (n : Nat) :
    0 ≤ t.dtype.sizeInBytes * ((extents t).take n).prod ∧
      t.dtype.sizeInBytes * ((extents t).take n).prod ≤ exactBytes extents t := by
  have htake : 0 < ((extents t).take n).prod :=
    List.prod_pos fun v hv => hpos v (List.mem_of_mem_take hv)
  have hdrop : 0 < ((extents t).drop n).prod :=
    List.prod_pos fun v hv => hpos v (List.mem_of_mem_drop hv)
  refine ⟨mul_nonneg (Int.natCast_nonneg _) htake.le, ?_⟩
  rw [exactBytes, ← List.prod_take_mul_prod_drop (extents t) n]
  exact mul_le_mul_of_nonneg_left (le_mul_of_one_le_right htake.le hdrop) (Int.natCast_nonneg _)

theorem greatest_lt_exactUse (hpos : ∀ t ∈ groupTemporaries k, ∀ v ∈ extents t, 0 < v)
    (h : ¬ Countable extents k) : Word.greatest < exactUse extents k := by
  have hbytes (t) (ht : t ∈ groupTemporaries k) : 0 ≤ exactBytes extents t :=
    (leading_le_exactBytes (hpos t ht) 0).1.trans (leading_le_exactBytes (hpos t ht) 0).2
  have hnonneg (ts) (hts : ts ⊆ groupTemporaries k) : 0 ≤ (ts.map (exactBytes extents)).sum :=
    List.sum_nonneg (List.forall_mem_map.mpr fun t ht => hbytes t (hts ht))
  have hleast : Word.least ≤ 0 := by decide
  by_contra hle
  rw [not_lt] at hle
  refine h ⟨fun t ht n => ?_, fun n => ?_⟩
  · obtain ⟨hzero, hleading⟩ := leading_le_exactBytes (hpos t ht) n
    have hmember : exactBytes extents t ≤ exactUse extents k :=
      List.single_le_sum (List.forall_mem_map.mpr hbytes) _ (List.mem_map_of_mem ht)
    exact ⟨hleast.trans hzero, (hleading.trans hmember).trans hle⟩
  · have hdrop := hnonneg _ (List.drop_subset n _)
    have hsplit := List.sum_take_add_sum_drop ((groupTemporaries k).map (exactBytes extents)) n
    rw [← List.map_take, ← List.map_drop] at hsplit
    refine ⟨hleast.trans (hnonneg _ (List.take_subset n _)), le_trans ?_ hle⟩
    rw [exactUse, ← hsplit]
    exact le_add_of_nonneg_right hdrop

theorem fitting_fails {v : Int} : FailsOnly (· = .overflow) (Expr.fitting v) := by
  unfold Expr.fitting
  split
  · exact .ok
  · exact .error rfl

theorem localMemoryUse_fails (h : Measures values extents k) :
    FailsOnly (· = .overflow) (localMemoryUse k values) := by
  apply FailsOnly.foldlM_mem
  intro total t ht
  apply FailsOnly.bind
  · rw [bytes_eq_product (h t ht)]
    exact .foldlM fun _ _ => fitting_fails
  · exact fun _ => fitting_fails

end Counting

section Verdict

theorem memoryProblems_of_countable (h : Measures values extents k)
    (hfits : Countable extents k) : memoryProblems k device values =
      if device.localMemorySize < exactUse extents k then [memoryExceeded device.localMemory]
      else [] := by
  rw [memoryProblems, (localMemoryUse_eq_ok h).mpr ⟨hfits, rfl⟩]
  simp only [exceeds, decide_eq_true_iff]

theorem memoryProblems_of_not_countable (h : Measures values extents k)
    (hfits : ¬ Countable extents k) :
    memoryProblems k device values = [unchecked "local memory use" .overflow] := by
  rw [memoryProblems]
  cases huse : localMemoryUse k values with
  | error e => rw [localMemoryUse_fails h e huse]
  | ok used => exact absurd ((localMemoryUse_eq_ok h).mp huse).1 hfits

theorem head_message_ne (hp : p ∈ dimensionProblems k device ∨ p ∈ sizeProblems k device values ∨
    p ∈ argumentProblems k device) : p.message.toList.head? ≠ some 'u' := by
  rcases hp with hp | hp | hp
  · simp only [dimensionProblems, List.mem_ite_nil_right, List.mem_singleton] at hp
    rw [hp.2]
    decide
  · rw [sizeProblems] at hp
    split at hp
    · next e _ =>
      rw [List.mem_singleton.mp hp]
      cases e <;> simp [unchecked]
    · rcases List.mem_append.mp hp with hp | hp
      · obtain ⟨⟨⟨size, limit⟩, axis⟩, -, hp⟩ := List.mem_filterMap.mp hp
        simp only [Option.ite_none_right_eq_some, Option.some.injEq] at hp
        simp [← hp.2]
      · rw [groupProblems] at hp
        split at hp
        · simp only [List.mem_ite_nil_right, List.mem_singleton] at hp
          rw [hp.2]
          decide
        · rw [List.mem_singleton.mp hp]
          decide
  · simp only [argumentProblems, List.mem_ite_nil_right, List.mem_singleton] at hp
    rw [hp.2]
    decide

theorem memoryExceeded_mem_advise {m : LocalMemory} :
    memoryExceeded m ∈ (advise k device values).messages ↔
      memoryExceeded m ∈ memoryProblems k device values := by
  have hother (h : memoryExceeded m ∈ dimensionProblems k device ∨
      memoryExceeded m ∈ sizeProblems k device values ∨
      memoryExceeded m ∈ argumentProblems k device) : False :=
    head_message_ne h (by cases m <;> decide)
  simp only [advise_messages, List.mem_append]
  tauto

/-- Where all shapes have values, the problem of local memory is reported exactly if the bytes are
more than the device has and each number on the way to their sum is a word. A count that leaves the
words is only noted, although with positive extents it is above every limit that is a word. -/
theorem memoryExceeded_iff (h : Measures values extents k) :
    (memoryExceeded device.localMemory ∈ (advise k device values).messages ↔
      Countable extents k ∧ device.localMemorySize < exactUse extents k) ∧
    (¬ Countable extents k →
      ⟨1, "could not check local memory use: integer overflow"⟩ ∈
        (advise k device values).messages ∧
        ((∀ t ∈ groupTemporaries k, ∀ v ∈ extents t, 0 < v) →
          Word.greatest < exactUse extents k)) ∧
    (device.localMemory = .dedicated → Countable extents k →
      ∀ ks, k ∈ filterVariants device values .standard ks →
        exactUse extents k ≤ device.localMemorySize) := by
  have hiff : memoryExceeded device.localMemory ∈ (advise k device values).messages ↔
      Countable extents k ∧ device.localMemorySize < exactUse extents k := by
    rw [memoryExceeded_mem_advise]
    by_cases hfits : Countable extents k
    · simp [memoryProblems_of_countable h hfits, hfits]
    · simp only [memoryProblems_of_not_countable h hfits, hfits, List.mem_singleton, false_and,
        iff_false]
      intro heq
      have hseverity := congrArg Problem.severity heq
      cases hm : device.localMemory <;> simp [hm, memoryExceeded, unchecked] at hseverity
  refine ⟨hiff, fun hfits => ⟨?_, fun hpos => greatest_lt_exactUse hpos hfits⟩, ?_⟩
  · simp only [advise_messages, memoryProblems_of_not_countable h hfits, List.mem_append]
    exact .inl (.inr (List.mem_singleton.mpr rfl))
  · intro hdedicated hfits ks hk
    by_contra hlt
    have hlevel := severity_lt_of_mem_filterVariants hk (hiff.mpr ⟨hfits, not_le.mp hlt⟩)
    rw [hdedicated] at hlevel
    exact absurd hlevel (by decide)

def squareTile : Kernel :=
  { Kernel.blank with temporaries := [⟨"tile", [.var "n", .var "n"], .float32, .perGroup⟩] }

def smallGpu : Device := ⟨3, [1024, 1024, 64], 1024, 49152, .dedicated, 8⟩

theorem squareTile_measures (n : Int) :
    Measures [("n", n)] (fun _ => [n, n]) squareTile := by
  intro t ht
  obtain rfl : t = ⟨"tile", [.var "n", .var "n"], .float32, .perGroup⟩ := by
    simpa [squareTile, groupTemporaries] using ht
  exact .cons rfl (.cons rfl .nil)

theorem squareTile_exceeded : Measures [("n", 128)] (fun _ => [128, 128]) squareTile ∧
    Countable (fun _ => [128, 128]) squareTile ∧
    exactUse (fun _ => [128, 128]) squareTile = 65536 ∧
    memoryExceeded .dedicated ∈ (advise squareTile smallGpu [("n", 128)]).messages := by
  have hmeasures := squareTile_measures 128
  have hused : localMemoryUse squareTile [("n", 128)] = .ok 65536 := rfl
  obtain ⟨hcount, huse⟩ := (localMemoryUse_eq_ok hmeasures).mp hused
  have hlarge : smallGpu.localMemorySize < exactUse (fun _ => [128, 128]) squareTile := by
    rw [huse]
    decide
  exact ⟨hmeasures, hcount, huse, (memoryExceeded_iff hmeasures).1.mpr ⟨hcount, hlarge⟩⟩

theorem squareTile_survives :
    Measures [("n", 2147483648)] (fun _ => [2147483648, 2147483648]) squareTile ∧
    smallGpu.localMemorySize < exactUse (fun _ => [2147483648, 2147483648]) squareTile ∧
    memoryExceeded smallGpu.localMemory ∉
      (advise squareTile smallGpu [("n", 2147483648)]).messages ∧
    filterVariants smallGpu [("n", 2147483648)] .standard [squareTile] = [squareTile] :=
  ⟨squareTile_measures _, by decide, by decide, rfl⟩

end Verdict

end LoopAudit.Advisory
