import LoopAudit.Expr.Reader
import LoopAudit.IntegerSet.Reader
import LoopAudit.JsonText.Decoder
import LoopAudit.Kernel
import LoopAudit.Table

/-! Kernel snapshots: kernels as JSON text. -/

namespace LoopAudit.Kernel.Snapshot

open JsonText

def refine {α β : Type} (value : Decoder α) (f : α → Except String β) : Decoder β := fun cs => do
  let (a, cs) ← value cs
  match f a with
  | .ok b => .ok (b, cs)
  | .error reason => .error (.mismatch reason)

def setText (src : String) : Except String IntegerSet :=
  (IntegerSet.parse src).mapError SyntaxError.message

def exprText (src : String) : Except String Expr :=
  (Expr.parse src).mapError SyntaxError.message

def set : Decoder IntegerSet := refine string setText

/-- The texts are all read before the first is parsed. -/
def sets : Decoder (List IntegerSet) := refine (array string) (List.mapM setText)

def expr (level : Nat) : Decoder Expr :=
  refine (atom (maxDepth - level)) fun
    | .integer n => .ok (.int n)
    | .text src => exprText src
    | .other => .error "data did not match any variant of untagged enum Raw"

def tag : Decoder Tag := refine string fun src => (Tag.parse src).mapError KernelError.message

def scalarType : Decoder ScalarType :=
  refine string fun src => (ScalarType.parse src).mapError KernelError.message

def scope : Decoder Scope :=
  variant [("local", .perGroup), ("private", .perItem), ("undecided", .undecided)]

def argKind : Decoder ArgKind :=
  variant [("global", .global), ("constant", .constant), ("value", .value)]

def part {σ α : Type} (name : String) (required : Bool) (value : Decoder α) (put : σ → α → σ) :
    RecordField σ :=
  ⟨name, required, fun s cs => do
    let (a, cs) ← value cs
    .ok (put s a, cs)⟩

def temporary : Decoder Temporary :=
  record "TemporaryVariable"
    [part "name" true string fun t x => { t with name := x },
      part "shape" false (array (expr 4)) fun t x => { t with shape := x },
      part "dtype" true scalarType fun t x => { t with dtype := x },
      part "scope" true scope fun t x => { t with scope := x }]
    ⟨"", [], .int8, .undecided⟩

def argument : Decoder Argument :=
  record "Argument"
    [part "name" true string fun a x => { a with name := x },
      part "shape" false (nullable (array (expr 4))) fun a x => { a with shape := x },
      part "dtype" true scalarType fun a x => { a with dtype := x },
      part "kind" true argKind fun a x => { a with kind := x }]
    ⟨"", none, .int8, .value⟩

def instruction : Decoder Instruction :=
  record "Instruction"
    [part "id" true string fun i x => { i with id := x },
      part "assignee" true (expr 3) fun i x => { i with assignee := x },
      part "expression" true (expr 3) fun i x => { i with expression := x },
      part "inames" false (array string)
        fun i x => { i with inames := Names.ofList x, sorted := Names.sorted_ofList x },
      part "boostable" false boolean fun i x => { i with boostable := x }]
    ⟨"", .int 0, .int 0, [], false, .nil⟩

def grid : Decoder Grid :=
  record "GridSizes"
    [part "group" false (array (expr 3)) fun g x => { g with group := x },
      part "local" false (array (expr 3)) fun g x => { g with item := x }]
    ⟨[], []⟩

def byName (ts : List Temporary) : Except String (List Temporary) :=
  match Names.firstRepeated? [] (ts.map (·.name)) with
  | some x => .error ("temporary '" ++ x ++ "' is declared twice")
  | none => .ok ((Table.ofList (ts.map fun t => (t.name, t))).map Prod.snd)

def kernel : Decoder Kernel :=
  record "Kernel"
    [part "name" true string fun k x => { k with name := x },
      part "assumptions" false set fun k x => { k with assumptions := x },
      part "domains" false sets fun k x => { k with domains := x },
      part "instructions" false (array instruction) fun k x => { k with instructions := x },
      part "iname_to_tag" false (entries stringTail tag)
        fun k x => { k with tags := Table.ofList x },
      part "temporaries" false (refine (array temporary) byName)
        fun k x => { k with temporaries := x },
      part "args" false (array argument) fun k x => { k with args := x },
      part "grid" false grid fun k x => { k with grid := x },
      part "local_sizes" false (entries (numericKey Tag.axisBound "u32") (expr 2))
        fun k x => { k with localSizes := Table.ofList x }]
    .blank

def exprValue (e : Expr) : JsonValue := .text e.text

def exprsValue (es : List Expr) : JsonValue := .array (es.map exprValue)

def instructionValue (i : Instruction) : JsonValue :=
  .object [("id", .text i.id), ("assignee", exprValue i.assignee),
    ("expression", exprValue i.expression), ("inames", .array (i.inames.map .text)),
    ("boostable", .bool i.boostable)]

def temporaryValue (t : Temporary) : JsonValue :=
  .object [("name", .text t.name), ("shape", exprsValue t.shape), ("dtype", .text t.dtype.text),
    ("scope", .text t.scope.text)]

def argumentValue (a : Argument) : JsonValue :=
  .object [("name", .text a.name), ("shape", a.shape.elim .null exprsValue),
    ("dtype", .text a.dtype.text), ("kind", .text a.kind.text)]

def kernelValue (k : Kernel) : JsonValue :=
  .object [("name", .text k.name), ("assumptions", .text k.assumptions.text),
    ("domains", .array (k.domains.map fun d => .text d.text)),
    ("instructions", .array (k.instructions.map instructionValue)),
    ("iname_to_tag", .object (k.tags.map fun t => (t.1, .text t.2.text))),
    ("temporaries", .array (k.temporaries.map temporaryValue)),
    ("args", .array (k.args.map argumentValue)),
    ("grid", .object [("group", exprsValue k.grid.group), ("local", exprsValue k.grid.item)]),
    ("local_sizes", .object (k.localSizes.map fun s => (Decimal.text s.1, exprValue s.2)))]

end LoopAudit.Kernel.Snapshot

namespace LoopAudit.Kernel

def read (src : String) : Except KernelError Kernel :=
  (JsonText.whole Snapshot.kernel src).mapError KernelError.json

def load (src : String) : Except KernelError Kernel := do
  let k ← read src
  k.validate
  .ok k

def toJson (k : Kernel) : String := (Snapshot.kernelValue k).pretty

end LoopAudit.Kernel
