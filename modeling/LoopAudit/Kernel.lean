import LoopAudit.Expr
import LoopAudit.IntegerSet
import LoopAudit.JsonText.Scan
import LoopAudit.ScalarType
import LoopAudit.Tag

/-! Kernels: loop domains, instructions over them, and the data they touch. -/

namespace LoopAudit

inductive Scope where
  | perGroup
  | perItem
  | undecided
deriving DecidableEq, Repr

def Scope.text : Scope → String
  | .perGroup => "local"
  | .perItem => "private"
  | .undecided => "undecided"

inductive ArgKind where
  | global
  | constant
  | value
deriving DecidableEq, Repr

def ArgKind.text : ArgKind → String
  | .global => "global"
  | .constant => "constant"
  | .value => "value"

structure Temporary where
  name : String
  shape : List Expr
  dtype : ScalarType
  scope : Scope
deriving Repr

structure Argument where
  name : String
  /-- The extents of an array, `none` for a scalar. -/
  shape : Option (List Expr)
  dtype : ScalarType
  kind : ArgKind
deriving Repr

structure Instruction where
  id : String
  assignee : Expr
  expression : Expr
  inames : List String
  /-- Whether it may run redundantly along hardware axes that it does not use. -/
  boostable : Bool
  sorted : inames.Pairwise (· < ·)
deriving Repr

structure Grid where
  group : List Expr
  item : List Expr
deriving Repr

structure Kernel where
  name : String
  /-- Facts about the parameters that may be relied on. -/
  assumptions : IntegerSet
  domains : List IntegerSet
  instructions : List Instruction
  tags : List (String × Tag)
  temporaries : List Temporary
  args : List Argument
  grid : Grid
  localSizes : List (Nat × Expr)
deriving Repr

inductive KernelError where
  | duplicateIname (name : String)
  | undeclaredIname (insn iname : String)
  | taggedUnknownIname (iname tag : String)
  | duplicateInstructionId (id : String)
  | invalidTag (src : String)
  | invalidScalarType (src : String)
  | json (fault : JsonText.Fault)
deriving DecidableEq, Repr

namespace KernelError

def message : KernelError → String
  | duplicateIname name =>
    "iteration variable '" ++ name ++ "' is a dimension of more than one domain"
  | undeclaredIname insn iname =>
    "instruction '" ++ insn ++ "' runs within undeclared iteration variable '" ++ iname ++ "'"
  | taggedUnknownIname iname tag =>
    "tag '" ++ tag ++ "' is attached to undeclared iteration variable '" ++ iname ++ "'"
  | duplicateInstructionId id => "instruction id '" ++ id ++ "' is used more than once"
  | invalidTag src => "invalid iteration tag '" ++ src ++ "'"
  | invalidScalarType src => "unknown data type '" ++ src ++ "'"
  | json (.mismatch reason) => "malformed kernel snapshot: " ++ reason
  | json _ => "malformed kernel snapshot"

def code : KernelError → String
  | duplicateIname _ => "polyguard::kernel::duplicate_iname"
  | undeclaredIname _ _ => "polyguard::kernel::undeclared_iname"
  | taggedUnknownIname _ _ => "polyguard::kernel::unknown_tagged_iname"
  | duplicateInstructionId _ => "polyguard::kernel::duplicate_insn_id"
  | invalidTag _ => "polyguard::kernel::invalid_tag"
  | invalidScalarType _ => "polyguard::kernel::invalid_dtype"
  | json _ => "polyguard::kernel::json"

def help : KernelError → Option String
  | invalidTag _ => some "expected one of g.N, l.N, l.auto, vec, unr, unique.<key>"
  | _ => none

end KernelError

def Tag.parse (src : String) : Except KernelError Tag :=
  match Tag.parse? src with
  | some t => .ok t
  | none => .error (.invalidTag src)

def ScalarType.parse (src : String) : Except KernelError ScalarType :=
  match ScalarType.parse? src with
  | some t => .ok t
  | none => .error (.invalidScalarType src)

namespace Kernel

def blank : Kernel :=
  ⟨"", .univ .empty, [], [], [], [], [], ⟨[], []⟩, []⟩

def declaredInames (k : Kernel) : List String := k.domains.flatMap fun d => d.space.dims

def inames (k : Kernel) : List String := Names.ofList k.declaredInames

def params (k : Kernel) : List String :=
  Names.ofList
    ((k.domains.flatMap fun d => d.space.params).filter fun p => !k.declaredInames.contains p)

def tag? (k : Kernel) (iname : String) : Option Tag := k.tags.lookup iname

def instruction? (k : Kernel) (id : String) : Option Instruction :=
  k.instructions.find? fun i => i.id == id

def argument? (k : Kernel) (name : String) : Option Argument :=
  k.args.find? fun a => a.name == name

def temporary? (k : Kernel) (name : String) : Option Temporary :=
  k.temporaries.find? fun t => t.name == name

def isTemporary (k : Kernel) (name : String) : Bool := (k.temporary? name).isSome

def homeIndex? (k : Kernel) (iname : String) : Option Nat :=
  k.domains.findIdx? fun d => d.space.dims.contains iname

def parents (k : Kernel) (i : Nat) : List Nat :=
  (k.domains[i]?.elim [] fun d => d.space.params).filterMap k.homeIndex?

structure Worklist where
  wanted : List Nat
  queue : List Nat

namespace Worklist

def note (w : Worklist) (i : Nat) : Worklist :=
  if w.wanted.contains i then w else ⟨i :: w.wanted, i :: w.queue⟩

def run (k : Kernel) : Nat → Worklist → Worklist
  | 0, w => w
  | turns + 1, w =>
    match w.queue with
    | [] => w
    | i :: queue => run k turns ((k.parents i).foldl note ⟨w.wanted, queue⟩)

end Worklist

/-- The domains that declare one of the loop variables, with all domains they depend on, in order.
Each domain enters the queue once, so that there are no more turns than domains. -/
def wantedDomains (k : Kernel) (inames : List String) : List Nat :=
  let direct := inames.filterMap k.homeIndex?
  let start := ((List.range k.domains.length).filter direct.contains).reverse
  let found := Worklist.run k k.domains.length ⟨start, start⟩
  (List.range k.domains.length).filter found.wanted.contains

def domainFor (k : Kernel) (inames : List String) : Except SetError IntegerSet :=
  ((k.wantedDomains inames).filterMap fun i => k.domains[i]?).foldlM IntegerSet.intersect
    (.univ .empty)

def validateInstructions (declared : List String) (seen : List String) :
    List Instruction → Except KernelError Unit
  | [] => .ok ()
  | i :: rest =>
    if seen.contains i.id then .error (.duplicateInstructionId i.id)
    else
      match i.inames.find? fun x => !declared.contains x with
      | some x => .error (.undeclaredIname i.id x)
      | none => validateInstructions declared (i.id :: seen) rest

def validate (k : Kernel) : Except KernelError Unit := do
  match Names.firstRepeated? [] k.declaredInames with
  | some x => .error (.duplicateIname x)
  | none =>
    validateInstructions k.declaredInames [] k.instructions
    match k.tags.find? fun t => !k.declaredInames.contains t.1 with
    | some (x, t) => .error (.taggedUnknownIname x t.text)
    | none => .ok ()

end Kernel

end LoopAudit
