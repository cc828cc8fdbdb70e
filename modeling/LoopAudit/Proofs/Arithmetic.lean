import LoopAudit.Proofs.Affine
import LoopAudit.Proofs.Faults

/-! Sequences of operations on affine forms. The forms stand in registers, which operations read,
change in place or fill with a new form. Whatever the sequence, every register holds a canonical
form, whose values are those that the operations which answered compute on integers; an operation
that fails changes no register. -/

namespace LoopAudit.Affine

open Function Fallible

section InPlace

variable {e : Affine} {x : String} {c k : Int} {fault : SetError}

theorem increaseTerm_of_error (h : e.addTerm x c = .error fault) :
    e.increaseTerm x c = (e, some fault) := by
  have hfault := outcome_eq_error_iff.mp h
  unfold increaseTerm at hfault ⊢
  split at hfault
  · cases hfault
  · cases hsum : exact (e.coeff x + c) <;> simp_all

theorem increaseConstant_of_error (h : e.addConstant k = .error fault) :
    e.increaseConstant k = (e, some fault) := by
  have hfault := outcome_eq_error_iff.mp h
  unfold increaseConstant at hfault ⊢
  cases hsum : exact (e.constant + k) <;> simp_all

end InPlace

/-- An operation on forms that stand in registers. The first two change a form in place, and the
others put a new form into the last register. -/
inductive Operation (ι : Type) where
  | addTerm (i : ι) (x : String) (c : Int)
  | addConstant (i : ι) (k : Int)
  | add (i j target : ι)
  | sub (i j target : ι)
  | scale (i : ι) (k : Int) (target : ι)
  | neg (i target : ι)
  | substitute (i : ι) (x : String) (j target : ι)
  | substituteValue (i : ι) (x : String) (v : Int) (target : ι)
  | rename (i : ι) (x y : String) (target : ι)

def valuation {ι : Type} (σ : ι → Affine) : ι → (String → Int) → Int := fun i => (σ i).eval

namespace Operation

variable {ι : Type} {σ : ι → Affine} {op : Operation ι} {e : Affine} {fault : SetError}

def target : Operation ι → ι
  | addTerm i _ _ | addConstant i _ => i
  | add _ _ t | sub _ _ t | scale _ _ t | neg _ t | substitute _ _ _ t | substituteValue _ _ _ t
  | rename _ _ _ t => t

def result (σ : ι → Affine) : Operation ι → Except SetError Affine
  | addTerm i x c => (σ i).addTerm x c
  | addConstant i k => (σ i).addConstant k
  | add i j _ => (σ i).add (σ j)
  | sub i j _ => (σ i).sub (σ j)
  | scale i k _ => (σ i).scale k
  | neg i _ => (σ i).neg
  | substitute i x j _ => (σ i).substitute x (σ j)
  | substituteValue i x v _ => (σ i).substituteValue x v
  | rename i x y _ => (σ i).rename x y

def value (v : ι → (String → Int) → Int) : Operation ι → (String → Int) → Int
  | addTerm i x c, ρ => v i ρ + c * ρ x
  | addConstant i k, ρ => v i ρ + k
  | add i j _, ρ => v i ρ + v j ρ
  | sub i j _, ρ => v i ρ - v j ρ
  | scale i k _, ρ => k * v i ρ
  | neg i _, ρ => -v i ρ
  | substitute i x j _, ρ => v i (update ρ x (v j ρ))
  | substituteValue i x n _, ρ => v i (update ρ x n)
  | rename i x y _, ρ => v i (update ρ x (ρ y))

theorem result_spec (hσ : ∀ i, (σ i).Canonical) (h : op.result σ = .ok e) :
    e.Canonical ∧ ∀ ρ, e.eval ρ = op.value (valuation σ) ρ := by
  have hover (i : ι) : (σ i).Over fun _ => True := ⟨hσ i, fun _ _ => trivial⟩
  suffices hspec : e.Over (fun _ => True) ∧ ∀ ρ, e.eval ρ = op.value (valuation σ) ρ from
    ⟨hspec.1.canonical, hspec.2⟩
  cases op with
  | addTerm i x c => exact addTerm_spec (hover i) trivial h
  | addConstant i k => exact addConstant_spec (hover i) h
  | add i j _ => exact add_spec (hover i) (hover j) h
  | sub i j _ => exact sub_spec (hover i) (hover j) h
  | scale i k _ => exact scale_spec (hover i) h
  | neg i _ => exact neg_spec (hover i) h
  | substitute i x j _ => exact substitute_spec (hover i) (hover j) (fun _ _ _ => trivial) h
  | substituteValue i x v _ =>
    exact substitute_spec (hover i) (.const v) (fun _ _ _ => trivial) h
  | rename i x y _ =>
    obtain ⟨hcanonical, heval⟩ :=
      substitute_spec (hover i) (.term trivial 1) (fun _ _ _ => trivial) h
    refine ⟨hcanonical, fun ρ => ?_⟩
    rw [heval, eval_term, one_mul]
    rfl

theorem result_overflows : Overflows (op.result σ) := by
  cases op with
  | addTerm i x c => exact addTerm_overflows
  | addConstant i k => exact addConstant_overflows
  | add i j _ => exact add_overflows
  | sub i j _ => exact sub_overflows
  | scale i k _ => exact scale_overflows
  | neg i _ => exact scale_overflows (k := -1)
  | substitute i x _ _ | substituteValue i x _ _ | rename i x _ _ => exact substitute_overflows

variable [DecidableEq ι]

def step (σ : ι → Affine) (op : Operation ι) : (ι → Affine) × Option SetError :=
  match op with
  | addTerm i x c => ((σ i).increaseTerm x c).map (update σ i) id
  | addConstant i k => ((σ i).increaseConstant k).map (update σ i) id
  | op =>
    match op.result σ with
    | .error fault => (σ, some fault)
    | .ok e => (update σ op.target e, none)

theorem step_of_ok (h : op.result σ = .ok e) : op.step σ = (update σ op.target e, none) := by
  cases op with
  | addTerm i x c | addConstant i k => rw [step, outcome_eq_ok_iff.mp h]; rfl
  | _ => simp only [step, h]

theorem step_of_error (h : op.result σ = .error fault) : op.step σ = (σ, some fault) := by
  cases op with
  | addTerm i x c =>
    rw [step, increaseTerm_of_error h, Prod.map_apply, update_eq_self]
    rfl
  | addConstant i k =>
    rw [step, increaseConstant_of_error h, Prod.map_apply, update_eq_self]
    rfl
  | _ => simp only [step, h]

def effect (v : ι → (String → Int) → Int) (op : Operation ι) : ι → (String → Int) → Int :=
  update v op.target (op.value v)

theorem update_spec (hσ : ∀ i, (σ i).Canonical) (h : op.result σ = .ok e) :
    (∀ i, (update σ op.target e i).Canonical) ∧
      valuation (update σ op.target e) = op.effect (valuation σ) := by
  obtain ⟨hcanonical, heval⟩ := result_spec hσ h
  refine ⟨(forall_update_iff σ fun _ f => f.Canonical).mpr ⟨hcanonical, fun i _ => hσ i⟩, ?_⟩
  calc valuation (update σ op.target e)
      = update (valuation σ) op.target e.eval := comp_update eval σ op.target e
    _ = op.effect (valuation σ) := by rw [effect, funext heval]

end Operation

section Run

variable {ι : Type} [DecidableEq ι] {σ : ι → Affine}

def run (σ : ι → Affine) : List (Operation ι) → ι → Affine
  | [] => σ
  | op :: ops => run (op.step σ).1 ops

def answered (σ : ι → Affine) : List (Operation ι) → List (Operation ι)
  | [] => []
  | op :: ops =>
    if (op.step σ).2.isNone then op :: answered (op.step σ).1 ops else answered (op.step σ).1 ops

theorem run_spec (hσ : ∀ i, (σ i).Canonical) (ops : List (Operation ι)) :
    (∀ i, (run σ ops i).Canonical) ∧
      valuation (run σ ops) = (answered σ ops).foldl Operation.effect (valuation σ) := by
  induction ops generalizing σ with
  | nil => exact ⟨hσ, rfl⟩
  | cons op ops ih =>
    rw [run, answered]
    cases h : op.result σ with
    | error fault =>
      rw [Operation.step_of_error h]
      exact ih hσ
    | ok e =>
      obtain ⟨hcanonical, hvaluation⟩ := Operation.update_spec hσ h
      obtain ⟨hcanonical', hvaluation'⟩ := ih hcanonical
      rw [Operation.step_of_ok h]
      refine ⟨hcanonical', ?_⟩
      rw [hvaluation', hvaluation]
      rfl

/-- Arithmetic of forms is exact along every sequence of operations. At each point of it, an
operation that answers fills its register with a canonical form that takes the value of the integer
operation at every assignment, and one that fails, by overflow only, leaves all registers as they
were. The forms reached are canonical, with the values that the answered operations compute on
integers, and two of them are the same form exactly if they take the same values. -/
theorem arithmetic_exact (hσ : ∀ i, (σ i).Canonical) (ops : List (Operation ι)) :
    (∀ i, (run σ ops i).Canonical) ∧
      valuation (run σ ops) = (answered σ ops).foldl Operation.effect (valuation σ) ∧
      (∀ (op : Operation ι) e, op.result (run σ ops) = .ok e →
        op.step (run σ ops) = (update (run σ ops) op.target e, none) ∧ e.Canonical ∧
          ∀ ρ, e.eval ρ = op.value (valuation (run σ ops)) ρ) ∧
      (∀ (op : Operation ι) fault, op.result (run σ ops) = .error fault →
        fault = .overflow ∧ op.step (run σ ops) = (run σ ops, some fault)) ∧
      ∀ i j, run σ ops i = run σ ops j ↔ ∀ ρ, (run σ ops i).eval ρ = (run σ ops j).eval ρ := by
  obtain ⟨hcanonical, hvaluation⟩ := run_spec hσ ops
  refine ⟨hcanonical, hvaluation, fun op e h => ⟨Operation.step_of_ok h, ?_⟩,
    fun op fault h => ⟨Operation.result_overflows fault h, Operation.step_of_error h⟩,
    fun i j => ⟨fun h ρ => by rw [h], fun h => ?_⟩⟩
  · exact Operation.result_spec hcanonical h
  · exact (hcanonical i).eq_of_eval (hcanonical j) h

end Run

def crossing : Bool → Affine
  | true => ⟨[("i", 1), ("j", 2)], 3⟩
  | false => ⟨[("i", -1)], 1⟩

def turning : List (Operation Bool) :=
  [.substitute true "j" false true, .addConstant true Word.greatest,
    .substitute true "i" true false]

theorem crossing_turning :
    (∀ i, (crossing i).Canonical) ∧ run crossing turning true = ⟨[("i", -1)], 5⟩ ∧
      run crossing turning false = ⟨[("i", 1)], 0⟩ ∧
      answered crossing turning =
        [.substitute true "j" false true, .substitute true "i" true false] ∧
      valuation (run crossing turning) =
        [Operation.substitute true "j" false true, .substitute true "i" true false].foldl
          Operation.effect (valuation crossing) := by
  have hcanonical : ∀ i, (crossing i).Canonical := by decide
  obtain ⟨-, hvaluation, -⟩ := arithmetic_exact hcanonical turning
  exact ⟨hcanonical, rfl, rfl, rfl, hvaluation⟩

end LoopAudit.Affine
