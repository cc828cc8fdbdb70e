import LoopAudit.Kernel

/-! A kernel as text for people to read. -/

namespace LoopAudit.Kernel

def listText (es : List Expr) : String := ", ".intercalate (es.map Expr.text)

def rule : String := String.ofList (List.replicate 75 '-')

def argumentLine (a : Argument) : String :=
  a.name ++ ": type: " ++ a.dtype.text ++ ", kind: " ++ a.kind.text ++
    a.shape.elim "" fun shape => ", shape: (" ++ listText shape ++ ")"

def tagLine (k : Kernel) (iname : String) : String :=
  iname ++ ": " ++ (k.tag? iname).elim "(none)" Tag.text

def temporaryLine (t : Temporary) : String :=
  t.name ++ ": type: " ++ t.dtype.text ++ ", shape: (" ++ listText t.shape ++ "), scope: " ++
    t.scope.text

def instructionLine (i : Instruction) : String :=
  i.assignee.text ++ " <- " ++ i.expression.text ++ "  \x7bid=" ++ i.id ++ ", inames=" ++
    ",".intercalate i.inames ++ (if i.boostable then ", boostable" else "") ++ "\x7d"

def temporaryLines (k : Kernel) : List String :=
  if k.temporaries.isEmpty then []
  else [rule, "TEMPORARIES:"] ++ k.temporaries.map temporaryLine

def gridLines (k : Kernel) : List String :=
  if k.grid.group.isEmpty && k.grid.item.isEmpty then []
  else [rule, "GRID: group (" ++ listText k.grid.group ++ "), local (" ++
    listText k.grid.item ++ ")"]

def dumpLines (k : Kernel) : List String :=
  [rule, "KERNEL: " ++ k.name, rule, "ARGUMENTS:"] ++ k.args.map argumentLine ++
    [rule, "DOMAINS:"] ++ k.domains.map IntegerSet.text ++
    ["ASSUMPTIONS: " ++ k.assumptions.text, rule, "INAME TAGS:"] ++ k.inames.map k.tagLine ++
    k.temporaryLines ++ [rule, "INSTRUCTIONS:"] ++ k.instructions.map instructionLine ++
    k.gridLines ++ [rule]

def dump (k : Kernel) : String := "\n".intercalate k.dumpLines

end LoopAudit.Kernel
