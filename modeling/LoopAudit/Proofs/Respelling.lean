import LoopAudit.Kernel.Dump
import LoopAudit.Kernel.Snapshot
import LoopAudit.Proofs.Splicing

/-! Kernels with every expression spliced. An expression is spliced to another of the same text, so
that the dump, the snapshot and the validity of a kernel stay. -/

namespace LoopAudit

namespace Instruction

def exprs (i : Instruction) : List Expr := [i.assignee, i.expression]

theorem forall_mem_exprs {i : Instruction} {P : Expr → Prop} :
    (∀ e ∈ i.exprs, P e) ↔ P i.assignee ∧ P i.expression := by
  rw [exprs, List.forall_mem_cons, List.forall_mem_singleton]

def spliced (i : Instruction) : Instruction :=
  { i with assignee := i.assignee.spliced, expression := i.expression.spliced }

end Instruction

def Temporary.spliced (t : Temporary) : Temporary := { t with shape := t.shape.map Expr.spliced }

namespace Argument

def exprs (a : Argument) : List Expr := a.shape.getD []

def spliced (a : Argument) : Argument := { a with shape := a.shape.map (List.map Expr.spliced) }

end Argument

namespace Grid

def exprs (g : Grid) : List Expr := g.group ++ g.item

def spliced (g : Grid) : Grid := ⟨g.group.map Expr.spliced, g.item.map Expr.spliced⟩

end Grid

namespace Kernel

def sets (k : Kernel) : List IntegerSet := k.assumptions :: k.domains

def exprs (k : Kernel) : List Expr :=
  k.instructions.flatMap Instruction.exprs ++ (k.temporaries.flatMap Temporary.shape ++
    (k.args.flatMap Argument.exprs ++ (k.grid.exprs ++ k.localSizes.map Prod.snd)))

def spliced (k : Kernel) : Kernel :=
  { k with
    instructions := k.instructions.map Instruction.spliced
    temporaries := k.temporaries.map Temporary.spliced
    args := k.args.map Argument.spliced
    grid := k.grid.spliced
    localSizes := k.localSizes.map fun s => (s.1, s.2.spliced) }

variable {k : Kernel}

section Dump

theorem texts_spliced (es : List Expr) :
    (es.map Expr.spliced).map Expr.text = es.map Expr.text := by
  rw [List.map_map]
  exact List.map_congr_left fun e _ => e.text_spliced

theorem listText_spliced (es : List Expr) : listText (es.map Expr.spliced) = listText es := by
  rw [listText, texts_spliced, listText]

theorem argumentLine_spliced (a : Argument) : argumentLine a.spliced = argumentLine a := by
  obtain ⟨name, shape, dtype, kind⟩ := a
  cases shape with
  | none => rfl
  | some shape => simp [argumentLine, Argument.spliced, listText_spliced]

theorem temporaryLine_spliced (t : Temporary) : temporaryLine t.spliced = temporaryLine t := by
  simp only [temporaryLine, Temporary.spliced, listText_spliced]

theorem instructionLine_spliced (i : Instruction) :
    instructionLine i.spliced = instructionLine i := by
  have hassignee : i.spliced.assignee.text = i.assignee.text := i.assignee.text_spliced
  have hexpression : i.spliced.expression.text = i.expression.text := i.expression.text_spliced
  rw [instructionLine, hassignee, hexpression]
  rfl

theorem temporaryLines_spliced : k.spliced.temporaryLines = k.temporaryLines := by
  have hlines : k.spliced.temporaries.map temporaryLine = k.temporaries.map temporaryLine := by
    rw [spliced, List.map_map]
    exact List.map_congr_left fun t _ => temporaryLine_spliced t
  have hempty : k.spliced.temporaries.isEmpty = k.temporaries.isEmpty := List.isEmpty_map
  rw [temporaryLines, temporaryLines, hlines, hempty]

theorem gridLines_spliced : k.spliced.gridLines = k.gridLines := by
  simp only [gridLines, spliced, Grid.spliced, List.isEmpty_map, listText_spliced]

theorem dump_spliced : k.spliced.dump = k.dump := by
  have hargs : k.spliced.args.map argumentLine = k.args.map argumentLine := by
    rw [spliced, List.map_map]
    exact List.map_congr_left fun a _ => argumentLine_spliced a
  have hinstructions :
      k.spliced.instructions.map instructionLine = k.instructions.map instructionLine := by
    rw [spliced, List.map_map]
    exact List.map_congr_left fun i _ => instructionLine_spliced i
  have htags : k.spliced.inames.map k.spliced.tagLine = k.inames.map k.tagLine := rfl
  rw [dump, dumpLines, hargs, hinstructions, htags, temporaryLines_spliced, gridLines_spliced]
  rfl

end Dump

section Json

open Snapshot

theorem exprsValue_spliced (es : List Expr) : exprsValue (es.map Expr.spliced) = exprsValue es := by
  rw [exprsValue, exprsValue, List.map_map]
  refine congrArg JsonValue.array (List.map_congr_left fun e _ => ?_)
  exact congrArg JsonValue.text e.text_spliced

theorem instructionValue_spliced (i : Instruction) :
    instructionValue i.spliced = instructionValue i := by
  simp only [instructionValue, Instruction.spliced, exprValue, Expr.text_spliced]

theorem temporaryValue_spliced (t : Temporary) : temporaryValue t.spliced = temporaryValue t := by
  simp only [temporaryValue, Temporary.spliced, exprsValue_spliced]

theorem argumentValue_spliced (a : Argument) : argumentValue a.spliced = argumentValue a := by
  obtain ⟨name, shape, dtype, kind⟩ := a
  cases shape with
  | none => rfl
  | some shape => simp [argumentValue, Argument.spliced, exprsValue_spliced]

theorem toJson_spliced : k.spliced.toJson = k.toJson := by
  have hinstructions :
      k.spliced.instructions.map instructionValue = k.instructions.map instructionValue := by
    rw [spliced, List.map_map]
    exact List.map_congr_left fun i _ => instructionValue_spliced i
  have htemporaries :
      k.spliced.temporaries.map temporaryValue = k.temporaries.map temporaryValue := by
    rw [spliced, List.map_map]
    exact List.map_congr_left fun t _ => temporaryValue_spliced t
  have hargs : k.spliced.args.map argumentValue = k.args.map argumentValue := by
    rw [spliced, List.map_map]
    exact List.map_congr_left fun a _ => argumentValue_spliced a
  have hsizes : (k.spliced.localSizes.map fun s => (Decimal.text s.1, exprValue s.2)) =
      k.localSizes.map fun s => (Decimal.text s.1, exprValue s.2) := by
    rw [spliced, List.map_map]
    refine List.map_congr_left fun s _ => ?_
    exact congrArg (fun text => (Decimal.text s.1, JsonValue.text text)) s.2.text_spliced
  have hgroup : exprsValue k.spliced.grid.group = exprsValue k.grid.group := exprsValue_spliced _
  have hitem : exprsValue k.spliced.grid.item = exprsValue k.grid.item := exprsValue_spliced _
  rw [toJson, kernelValue, hinstructions, htemporaries, hargs, hsizes, hgroup, hitem]
  rfl

end Json

theorem validateInstructions_spliced {declared seen : List String} (is : List Instruction) :
    validateInstructions declared seen (is.map Instruction.spliced) =
      validateInstructions declared seen is := by
  induction is generalizing seen with
  | nil => rfl
  | cons i is ih =>
    rw [List.map_cons, validateInstructions, validateInstructions, ih]
    rfl

theorem validate_spliced : k.spliced.validate = k.validate := by
  have hinstructions : validateInstructions k.declaredInames [] k.spliced.instructions =
      validateInstructions k.declaredInames [] k.instructions := validateInstructions_spliced _
  have hdeclared : k.spliced.declaredInames = k.declaredInames := rfl
  have htags : k.spliced.tags = k.tags := rfl
  rw [validate, validate, hdeclared, htags, hinstructions]

end Kernel

end LoopAudit
