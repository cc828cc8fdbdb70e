import LoopAudit.Device
import LoopAudit.Expr.Evaluation
import LoopAudit.Kernel

/-! Whether a kernel fits a device. Severities go from 1, for information, to 5, where the kernel
will certainly not run. -/

namespace LoopAudit

structure Problem where
  severity : Nat
  message : String
deriving DecidableEq, Repr

/-- Kernels at or above `killLevel` are dropped, problems at or above `warnLevel` are logged. -/
structure Policy where
  killLevel : Nat
  warnLevel : Nat
deriving DecidableEq, Repr

def Policy.standard : Policy := ⟨5, 1⟩

structure Advisory where
  maxSeverity : Nat
  messages : List Problem
deriving DecidableEq, Repr

namespace Advisory

def clear : Advisory := ⟨0, []⟩

def push (a : Advisory) (p : Problem) : Advisory :=
  ⟨max a.maxSeverity p.severity, a.messages ++ [p]⟩

def report (a : Advisory) (problems : List Problem) : Advisory := problems.foldl push a

def unchecked (what : String) : EvalError → Problem
  | .unknownVariable name =>
    ⟨1, "could not check " ++ what ++ " because no value for variable '" ++ name ++ "' was passed"⟩
  | e => ⟨1, "could not check " ++ what ++ ": " ++ e.message⟩

def product (start : Int) (factors : List Int) : Except EvalError Int :=
  factors.foldlM (fun acc f => Expr.fitting (acc * f)) start

def bytes (values : Assignment) (t : Temporary) : Except EvalError Int := do
  product t.dtype.sizeInBytes (← t.shape.mapM (Expr.evaluate values))

def localMemoryUse (k : Kernel) (values : Assignment) : Except EvalError Int :=
  (k.temporaries.filter fun t => t.scope = .perGroup).foldlM
    (fun total t => do Expr.fitting (total + (← bytes values t))) 0

def dimensionProblems (k : Kernel) (device : Device) : List Problem :=
  if device.maxDimensions < max k.grid.group.length k.grid.item.length then
    [⟨5, "too many work item dimensions"⟩]
  else []

def itemSizes (k : Kernel) (values : Assignment) : Except EvalError (List Int) := do
  let _ ← k.grid.group.mapM (Expr.evaluate values)
  k.grid.item.mapM (Expr.evaluate values)

def exceeds (size limit : Int) : Bool := limit < size

def axisProblems (device : Device) (sizes : List Int) : List Problem :=
  (sizes.zip device.maxItemSizes).zipIdx.filterMap fun ((size, limit), axis) =>
    if exceeds size limit then some ⟨5, "local axis " ++ Decimal.text axis ++ " too big"⟩ else none

/-- A group size outside the word range is above every limit. -/
def groupProblems (device : Device) (sizes : List Int) : List Problem :=
  match product 1 sizes with
  | .ok size => if exceeds size device.maxGroupSize then [⟨5, "work group too big"⟩] else []
  | .error _ => [⟨5, "work group too big"⟩]

def sizeProblems (k : Kernel) (device : Device) (values : Assignment) : List Problem :=
  match itemSizes k values with
  | .error e => [unchecked "axis bounds" e]
  | .ok sizes => axisProblems device sizes ++ groupProblems device sizes

def memoryExceeded : LocalMemory → Problem
  | .dedicated => ⟨5, "using too much local memory"⟩
  | .cached => ⟨4, "using more local memory than available, possibly OK due to cache nature"⟩

def memoryProblems (k : Kernel) (device : Device) (values : Assignment) : List Problem :=
  match localMemoryUse k values with
  | .error e => [unchecked "local memory use" e]
  | .ok used =>
    if exceeds used device.localMemorySize then [memoryExceeded device.localMemory] else []

def argumentProblems (k : Kernel) (device : Device) : List Problem :=
  if device.maxConstantArgs < (k.args.filter fun a => a.kind = .constant).length then
    [⟨5, "too many constant arguments"⟩]
  else []

def advise (k : Kernel) (device : Device) (values : Assignment) : Advisory :=
  (((clear.report (dimensionProblems k device)).report (sizeProblems k device values)).report
    (memoryProblems k device values)).report (argumentProblems k device)

def survives (device : Device) (values : Assignment) (policy : Policy) (k : Kernel) : Bool :=
  (advise k device values).maxSeverity < policy.killLevel

def filterVariants (device : Device) (values : Assignment) (policy : Policy)
    (ks : List Kernel) : List Kernel :=
  ks.filter (survives device values policy)

end Advisory

end LoopAudit
